import Bladewright.Numeral.Power
import Bladewright.Tensor.Basic

/-!
Element-wise arithmetic of tensors.
-/
namespace Bladewright.Tensor

open Bladewright.Numeral Bladewright.Host

structure Operand where
  tensor : Tensor
  plain : Bool

/-- The elements of an operand as ones of a type. A plain number is rounded only here. -/
def Operand.cast (d : Dtype) (o : Operand) : Tensor :=
  if o.plain then ⟨d, o.tensor.shape, o.tensor.data.map (Element.cast d)⟩ else o.tensor.cast d

/-- The type of a result so far, together with one that counts only if it is of a greater kind. -/
def combine (higher lower : Option Dtype) : Option Dtype :=
  match higher, lower with
  | none, lower => lower
  | higher, none => higher
  | some h, some l =>
    if h.isFloating then some h
    else if h = .bool || l.isFloating then some (h.promote l)
    else some h

def greatest (operands : List Operand) (p : Operand → Bool) : Option Dtype :=
  (operands.filter p).foldl (fun d o => some (match d with
    | some d => d.promote o.tensor.dtype
    | none => o.tensor.dtype)) none

def resultType (operands : List Operand) : Dtype :=
  let dimensional := greatest operands fun o => !o.tensor.shape.isEmpty
  let bare := greatest operands fun o => o.tensor.shape.isEmpty && !o.plain
  let plain := greatest operands fun o => o.tensor.shape.isEmpty && o.plain
  (combine dimensional (combine bare plain)).getD .default

inductive Arith where
  | add
  | sub
  | mul
  | div
deriving DecidableEq, Repr

def Arith.real (f : Format) : Arith → Floating → Floating → Floating
  | .add => f.add
  | .sub => f.sub
  | .mul => f.mul
  | .div => f.div

def Arith.whole : Arith → Int → Int → Int
  | .add, a, b => a + b
  | .sub, a, b => a - b
  | .mul, a, b => a * b
  | .div, a, b => a.fdiv b

def Arith.element (op : Arith) (d : Dtype) : Element → Element → Element
  | .real a, .real b => .real (op.real d.format a b)
  | .whole a, .whole b =>
    let value := op.whole a b
    match d with
    | .bool => .ofBool (value != 0)
    | _ => .whole (Element.wrap value)
  | a, _ => a

/-- An element-wise operation on tensors of any shapes. A quotient is never of integers, and truth
values cannot be subtracted. -/
def arith (op : Arith) (a b : Operand) : Except Fault Tensor := do
  let d := resultType [a, b]
  let d := if op = .div && !d.isFloating then .default else d
  if op = .sub && d = .bool then throw .runtimeError
  match commonShape? a.tensor.shape b.tensor.shape with
  | none => throw .runtimeError
  | some shape =>
    let left := ((a.cast d).broadcastTo shape).data
    let right := ((b.cast d).broadcastTo shape).data
    return ⟨d, shape, List.zipWith (op.element d) left right⟩

def neg (t : Tensor) : Except Fault Tensor :=
  if t.dtype = .bool then throw .runtimeError
  else return { t with data := t.data.map fun
    | .whole n => .whole (Element.wrap (-n))
    | .real x => .real x.neg }

def abs (t : Tensor) : Tensor :=
  { t with data := t.data.map fun
    | .whole n => .whole (Element.wrap n.natAbs)
    | .real x => .real x.abs }

/-- An element to an integer power. A square and a cube are repeated products. -/
def elementPower (d : Dtype) (n : Int) : Element → Element
  | .whole a => .whole (Element.wrap (Int.pow a n.toNat))
  | .real x =>
    let f := d.format
    match n with
    | 2 => .real (f.mul x x)
    | 3 => .real (f.mul (f.mul x x) x)
    | -2 => .real (f.div (.finite 1) (f.mul x x))
    | n => .real (f.power x n)

/-- A tensor to an integer power. Integers have no negative powers. -/
def power (t : Tensor) (n : Int) : Except Fault Tensor :=
  if t.dtype.isFloating then return { t with data := t.data.map (elementPower t.dtype n) }
  else if n < 0 then throw .runtimeError
  else return (⟨.int64, t.shape, t.data.map (elementPower .int64 n)⟩ : Tensor)

def sqrt (t : Tensor) : Tensor :=
  let t := if t.dtype.isFloating then t else t.cast .default
  { t with data := t.data.map fun
    | .whole n => .whole n
    | .real x => .real (t.dtype.format.sqrt x) }

def elementOrder? : Element → Element → Option Ordering
  | .whole a, .whole b => some (compare a b)
  | .whole a, .real y => Floating.compare? (.finite a) y
  | .real x, .whole b => Floating.compare? x (.finite b)
  | .real x, .real y => Floating.compare? x y

def compareBy (p : Option Ordering → Bool) (a b : Operand) : Except Fault Tensor :=
  let d := resultType [a, b]
  match commonShape? a.tensor.shape b.tensor.shape with
  | none => throw .runtimeError
  | some shape =>
    let left := ((a.cast d).broadcastTo shape).data
    let right := ((b.cast d).broadcastTo shape).data
    return ⟨.bool, shape, List.zipWith (fun x y => .ofBool (p (elementOrder? x y))) left right⟩

def sameElements (a b : Tensor) : Bool :=
  let d := resultType [⟨a, false⟩, ⟨b, false⟩]
  a.shape == b.shape &&
    (List.zipWith (fun x y => elementOrder? x y == some .eq) (a.cast d).data (b.cast d).data).all id

end Bladewright.Tensor
