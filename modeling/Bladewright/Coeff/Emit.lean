import Bladewright.Coeff.Expand
import Bladewright.Coeff.Text
import Bladewright.Host.Grammar
import Bladewright.Host.Writable

/-!
Host code for coefficients. Terms and factors come in written order, a negative term is subtracted, and negative
powers and denominators of numbers stand below one division.
-/
namespace Bladewright.Coeff

open Numeral

/-- Why a coefficient has no code. -/
inductive EmitError where
  | unsupported (e : Coeff)
  | malformed (fault : Host.SyntaxFault)
  | unwritable
deriving Inhabited

def kindName : Coeff → String
  | num (.infinity true) => "NegativeInfinity"
  | num (.infinity false) => "Infinity"
  | num .unsigned => "ComplexInfinity"
  | num _ => "NaN"
  | const .pi => "Pi"
  | const .euler => "Exp1"
  | const .imaginary => "ImaginaryUnit"
  | app f _ => f
  | sym _ => "Symbol"
  | pow (const .euler) _ => "exp"
  | pow .. => "Pow"
  | prod .. => "Mul"
  | sum .. => "Add"

abbrev Code := Except EmitError Host.Expr

def signedConstant (negative : Bool) (size : Host.Literal) : Host.Expr :=
  if negative then .unary .minus (.literal size) else .literal size

def emitNumber (c : Scalar) : Code :=
  match c with
  | .exact q =>
    if q.den = 1 then .ok (signedConstant (decide (q < 0)) (.int q.num.natAbs))
    else
      let ratio := Host.Expr.binary .div (.int q.num.natAbs) (.int q.den)
      .ok (if q < 0 then .unary .minus ratio else ratio)
  | .approx q => .ok (signedConstant (decide (q < 0)) (.float (binary64.round (magnitude q))))
  | c => .error (.unsupported (num c))

def joinProduct : List Code → Code
  | [] => .ok (.int 1)
  | first :: rest => rest.foldl (fun left right => do
      let left ← left
      return .binary .mul left (← right)) first

/-- Terms in written order: the first as it is, and each further one added or, when its number is
negative, subtracted. The code of a term is computed by `code`. -/
def joinSum (code : Coeff → Code) : List Coeff → Code
  | [] => .ok (.int 0)
  | first :: rest => rest.foldl (fun left term => do
      let left ← left
      if term.splitNumber.1.isNegative then return .binary .sub left (← code (neg term))
      return .binary .add left (← code term)) (code first)

/-- The code of a product, from the code of smaller expressions: a sign goes in front, and what has a
denominator becomes one division. -/
def emitProduct (code : Coeff → Code) (c : Scalar) (fs : List Coeff) : Code :=
  let e := prod c fs
  if c.isNegative then do return .unary .minus (← code (neg e))
  else
    let (numerator, denominator) := e.fraction
    if denominator.isOne then joinProduct (e.orderedFactors.map code)
    else do
      let above ← code numerator
      return .binary .div above (← code denominator)

def emitPower (code : Coeff → Code) (e : Coeff) : Code :=
  let (base, exponent) := e.baseExponent
  match exponent.toInt? with
  | some n =>
    if n < 0 then do return .binary .div (.int 1) (← code (inv e))
    else do
      let left ← code base
      return .binary .pow left (← code exponent)
  | none => do
    let left ← code base
    return .binary .pow left (← code exponent)

def emitDeep : Nat → Coeff → Code
  | 0, e => .error (.unsupported e)
  | depth + 1, e =>
    match e with
    | num c => emitNumber c
    | sym s => match Host.Expr.read s with
      | .ok e => .ok e
      | .error fault => .error (.malformed fault)
    | app f args =>
      if f = "getcomponent" then do return .apply "getcomponent" (← args.mapM (emitDeep depth))
      else .error (.unsupported e)
    | sum .. => joinSum (emitDeep depth) e.orderedTerms
    | prod c fs => emitProduct (emitDeep depth) c fs
    | pow (const .euler) _ | const _ => .error (.unsupported e)
    | pow .. => emitPower (emitDeep depth) e

def depth : Coeff → Nat
  | num _ | sym _ | const _ => 1
  | app _ args => (args.attach.foldl (fun d ⟨a, _⟩ => max d a.depth) 0) + 1
  | pow b e => max b.depth e.depth + 1
  | prod _ fs => (fs.attach.foldl (fun d ⟨f, _⟩ => max d f.depth) 0) + 1
  | sum _ ts => (ts.attach.foldl (fun d ⟨t, _⟩ => max d t.depth) 0) + 1

/-- The code of a coefficient. -/
def emit (e : Coeff) : Code := emitDeep (8 * e.depth + 8) e

def emitText (e : Coeff) : Except EmitError String := do
  let code ← emit e
  if code.isWritable then return code.source else throw .unwritable

end Bladewright.Coeff
