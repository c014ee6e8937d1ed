import Bladewright.Coeff.Expand

/-!
Coefficients as the numbers of a multivector: sums only collect, products are multiplied out. Also the renaming of the
host inputs that a coefficient reads.
-/
namespace Bladewright.Coeff

instance : Add Coeff := ⟨add⟩
instance : Neg Coeff := ⟨neg⟩
instance : Mul Coeff := ⟨fun a b => expand (mul a b)⟩

def agrees (a b : Coeff) : Bool := (expand (add a (neg b))).isZero

mutual

/-- Renames host inputs; whatever holds a renamed one is built again. `none` if nothing changed. -/
def rename? (f : String → Option String) : Coeff → Option Coeff
  | sym s => (f s).map sym
  | num _ | const _ => none
  | app name args => (renameList? f args).map (app name)
  | pow b e => match rename? f b, rename? f e with
    | none, none => none
    | b', e' => some (raise (b'.getD b) (e'.getD e))
  | prod c factors => (renameList? f factors).map fun fs => mulAll (num c :: fs)
  | sum c terms => (renameList? f terms).map fun ts => addAll (num c :: ts)

def renameList? (f : String → Option String) : List Coeff → Option (List Coeff)
  | [] => none
  | e :: es => match rename? f e, renameList? f es with
    | none, none => none
    | e', es' => some (e'.getD e :: es'.getD es)

end

def rename (f : String → Option String) (e : Coeff) : Coeff := (rename? f e).getD e

end Bladewright.Coeff
