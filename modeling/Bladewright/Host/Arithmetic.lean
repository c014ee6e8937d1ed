import Bladewright.Host.Comparison
import Bladewright.Numeral.ComplexFloating

/-!
The operators on values. Integers are exact, and become floating-point numbers where they meet one or are divided; a
floating-point result is rounded, a power beyond the range is an overflow, and so is an integer beyond it.
-/
namespace Bladewright.Host.Value

open Bladewright.Numeral

def toFloating (n : Int) : Except Fault Floating :=
  match binary64.round n with
  | .infinite _ => throw .overflow
  | x => return x

/-- The quotient of two integers as a floating-point number. A zero takes the sign of the quotient. -/
def quotient (a b : Int) : Except Fault Floating :=
  if b = 0 then throw .zeroDivision
  else match binary64.round (mkRat (if b < 0 then -a else a) b.natAbs) with
    | .infinite _ => throw .overflow
    | x => return if x.isZero then .zero (decide (a < 0) != decide (b < 0)) else x

/-- The remainder that has the sign of the divisor, and the quotient rounded down. -/
def floatDivMod (x y : Floating) : Except Fault (Floating × Floating) :=
  if y.isZero then throw .zeroDivision
  else match x.toRat?, y.toRat? with
    | some p, some q =>
      let exact := p - q * ((p / q).num.tdiv (p / q).den : Int)
      let raw : Floating := if exact = 0 then .zero x.signed else .finite exact
      let ratio := binary64.div (binary64.sub x raw) y
      let (ratio, remainder) :=
        if raw.isZero then (ratio, .zero y.signed)
        else if raw.signed == y.signed then (ratio, raw)
        else (binary64.sub ratio (.finite 1), binary64.add raw y)
      let down := match ratio.toRat? with
        | some q =>
          if q = 0 then .zero (x.signed != y.signed)
          else
            let lower : Int := q.floor
            binary64.round (if q - lower > (1 / 2 : Rat) then lower + 1 else lower)
        | Option.none => ratio
      return (down, remainder)
    | some _, Option.none =>
      match y with
      | .infinite negative =>
        if x.isZero then return (.zero (x.signed != negative), .zero negative)
        else if x.signed == negative then return (.zero false, x)
        else return (.finite (-1), y)
      | _ => return (.nan, .nan)
    | _, _ => return (.nan, .nan)

def integralPower (x : Floating) (n : Int) : Except Fault Value :=
  if x.isZero && n < 0 then throw .zeroDivision
  else match x, binary64.power x n with
    | .finite _, .infinite _ => throw .overflow
    | _, y => return float y

def ofComplex (z : ComplexFloating) : Value := complex z.re z.im

def complexPower (a b : ComplexFloating) : Except Fault Value :=
  match a.pow? b with
  | some z => if z.isInfinite then throw .overflow else return ofComplex z
  | Option.none => throw .zeroDivision

def complexOperator (op : BinaryOp) (a b : ComplexFloating) : Except Fault Value :=
  match op with
  | .add => return ofComplex (a.add b)
  | .sub => return ofComplex (a.sub b)
  | .mul => return ofComplex (a.mul b)
  | .div => match a.div? b with
    | some z => return ofComplex z
    | Option.none => throw .zeroDivision
  | .pow => complexPower a b
  | _ => throw .typeError

def floatPower (x y : Floating) : Except Fault Value :=
  match y with
  | .negZero => return float (.finite 1)
  | .nan => return float (if x.sameValue (.finite 1) then x else .nan)
  | .infinite negative => match x with
    | .nan => return float .nan
    | x => match Floating.compare? x.abs (.finite 1) with
      | some .eq => return float (.finite 1)
      | some .gt => return float (if negative then .finite 0 else .infinite false)
      | _ => return float (if negative then .infinite false else .finite 0)
  | .finite q =>
    if q.den = 1 then integralPower x q.num
    else if x.isZero then (if q < 0 then throw .zeroDivision else return float (.finite 0))
    else match x with
      | .nan => return float .nan
      | .infinite _ => return float (if q < 0 then .finite 0 else .infinite false)
      | x => match x.toRat? with
        | some p =>
          if p < 0 then complexPower (.ofReal x) (.ofReal y)
          else match binary64.realPower p q with
            | .infinite _ => throw .overflow
            | y => return float y
        | Option.none => return float .nan

def lowBits (width : Nat) (n : Int) : Nat := (n % (Nat.pow 2 width : Nat)).toNat

def bitwise (f : Nat → Nat → Nat) (a b : Int) : Int :=
  let width := max a.natAbs b.natAbs |>.log2 |> (· + 2)
  let bits := f (lowBits width a) (lowBits width b)
  if bits < Nat.pow 2 (width - 1) then bits else (bits : Int) - (Nat.pow 2 width : Nat)

def wholeOperator (op : BinaryOp) (a b : Int) : Except Fault Value :=
  match op with
  | .add => return int (a + b)
  | .sub => return int (a - b)
  | .mul => return int (a * b)
  | .div => return float (← quotient a b)
  | .floorDiv => if b = 0 then throw .zeroDivision else return int (a.fdiv b)
  | .mod => if b = 0 then throw .zeroDivision else return int (a.fmod b)
  | .pow => if 0 ≤ b then return int (Int.pow a b.toNat) else do integralPower (← toFloating a) b
  | .shiftLeft => if b < 0 then throw (.valueError Option.none) else return int (a * (Nat.pow 2 b.toNat : Nat))
  | .shiftRight => if b < 0 then throw (.valueError Option.none) else return int (a.fdiv (Nat.pow 2 b.toNat : Nat))
  | .bitAnd => return int (bitwise (· &&& ·) a b)
  | .bitOr => return int (bitwise (· ||| ·) a b)
  | .bitXor => return int (bitwise (· ^^^ ·) a b)
  | .matMul => throw .typeError

def floatOperator (op : BinaryOp) (x y : Floating) : Except Fault Value :=
  match op with
  | .add => return float (binary64.add x y)
  | .sub => return float (binary64.sub x y)
  | .mul => return float (binary64.mul x y)
  | .div => if y.isZero then throw .zeroDivision else return float (binary64.div x y)
  | .floorDiv => return float (← floatDivMod x y).1
  | .mod => return float (← floatDivMod x y).2
  | .pow => floatPower x y
  | _ => throw .typeError

/-- An operator on operands of which one is a tensor. A number is divided by a tensor through the
reciprocals of the elements. -/
def tensorOperator (op : BinaryOp) (a b : Tensor.Operand) : Except Fault Value :=
  match op with
  | .add => return tensor (← Tensor.arith .add a b)
  | .sub => return tensor (← Tensor.arith .sub a b)
  | .mul => return tensor (← Tensor.arith .mul a b)
  | .div =>
    if a.plain then do
      let one : Tensor.Operand := ⟨⟨.int64, [], [.whole 1]⟩, true⟩
      return tensor (← Tensor.arith .mul ⟨← Tensor.arith .div one b, false⟩ a)
    else return tensor (← Tensor.arith .div a b)
  | .pow => match b.tensor.data with
    | [.whole n] => return tensor (← Tensor.power a.tensor n)
    | [.real (.finite q)] =>
      let base := a.tensor.cast (if a.tensor.dtype.isFloating then a.tensor.dtype else .default)
      if q.den = 1 then return tensor (← Tensor.power base q.num)
      else if q = (1 / 2 : Rat) then return tensor (Tensor.sqrt base)
      else throw .runtimeError
    | _ => throw .runtimeError
  | _ => throw .typeError

def repeated {α : Type} (n : Int) (xs : List α) : List α := (List.replicate n.toNat xs).flatten

def sequenceOperator (op : BinaryOp) (a b : Value) : Except Fault Value :=
  match op, a, b with
  | .add, str s, str t => return str (s ++ t)
  | .add, bytes s, bytes t => return bytes (s ++ t)
  | .add, tuple es, tuple fs => return tuple (es ++ fs)
  | .add, list es, list fs => return list (es ++ fs)
  | .mul, a, b => match a.whole?, b.whole? with
    | some n, Option.none => times n b
    | Option.none, some n => times n a
    | _, _ => throw .typeError
  | _, _, _ => throw .typeError
where
  times (n : Int) : Value → Except Fault Value
    | str s => return str (String.ofList (repeated n s.toList))
    | bytes s => return bytes (repeated n s)
    | tuple es => return tuple (repeated n es)
    | list es => return list (repeated n es)
    | _ => throw .typeError

def truthOperator? (op : BinaryOp) (a b : Bool) : Option Bool :=
  match op with
  | .bitAnd => some (a && b)
  | .bitOr => some (a || b)
  | .bitXor => some (a != b)
  | _ => Option.none

def floating? : Value → Option (Except Fault Floating)
  | bool b => some (toFloating (if b then 1 else 0))
  | int n => some (toFloating n)
  | float x => some (.ok x)
  | _ => Option.none

def complexFloating? : Value → Option (Except Fault ComplexFloating)
  | complex re im => some (.ok ⟨re, im⟩)
  | v => v.floating?.map fun x => return .ofReal (← x)

def operate (op : BinaryOp) (a b : Value) : Except Fault Value :=
  if a.isTensor || b.isTensor then
    match a.operand?, b.operand? with
    | some x, some y => tensorOperator op x y
    | _, _ => throw .typeError
  else match a, b with
    | bool x, bool y => match truthOperator? op x y with
      | some z => return bool z
      | Option.none => wholeOperator op (if x then 1 else 0) (if y then 1 else 0)
    | a, b => match a.whole?, b.whole? with
      | some m, some n => wholeOperator op m n
      | _, _ => match a.floating?, b.floating? with
        | some x, some y => do floatOperator op (← x) (← y)
        | _, _ => match a.complexFloating?, b.complexFloating? with
          | some x, some y => do complexOperator op (← x) (← y)
          | _, _ => sequenceOperator op a b

def operateUnary (op : UnaryOp) (a : Value) : Except Fault Value :=
  match op, a with
  | .not, a => return bool !(← a.truth)
  | .minus, tensor t => return tensor (← Tensor.neg t)
  | .plus, tensor t => return tensor t
  | .minus, float x => return float x.neg
  | .plus, float x => return float x
  | .minus, complex re im => return complex re.neg im.neg
  | .plus, complex re im => return complex re im
  | .minus, a => match a.whole? with
    | some n => return int (-n)
    | Option.none => throw .typeError
  | .plus, a => match a.whole? with
    | some n => return int n
    | Option.none => throw .typeError
  | .invert, a => match a.whole? with
    | some n => return int (-n - 1)
    | Option.none => throw .typeError

def size : Value → Except Fault Value
  | float x => return float x.abs
  | complex re im => match ComplexFloating.size ⟨re, im⟩, ComplexFloating.isInfinite ⟨re, im⟩ with
    | .infinite _, false => throw .overflow
    | x, _ => return float x
  | tensor t => return tensor t.abs
  | v => match v.whole? with
    | some n => return int n.natAbs
    | Option.none => throw .typeError

def rounded : Value → Except Fault Value
  | float x => match x.toRat?, x with
    | some q, _ => return int (nearest q)
    | Option.none, .infinite _ => throw .overflow
    | _, _ => throw (.valueError Option.none)
  | v => match v.whole? with
    | some n => return int n
    | Option.none => throw .typeError

def roundedTo (places : Int) : Value → Except Fault Value
  | float x => match x.toRat? with
    | some q =>
      if q = 0 then return float x
      else
        let y := binary64.round (roundTo (powInt 10 (-places)) q)
        return float (if y.isZero then .zero x.signed else y)
    | Option.none => return float x
  | v => match v.whole? with
    | some n =>
      let unit := Nat.pow 10 (-places).toNat
      return int (if 0 ≤ places then n else roundDiv n unit * unit)
    | Option.none => throw .typeError

end Bladewright.Host.Value
