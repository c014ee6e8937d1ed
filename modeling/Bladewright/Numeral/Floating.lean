import Bladewright.Numeral.Rounding

/-!
Binary floating-point values as exact rationals with the special values beside them. A format fixes the precision and
the exponent range, and every operation is the exact one followed by a single rounding into the format.
-/
namespace Bladewright.Numeral

/-- The significant bits and the exponent range of a binary format. -/
structure Format where
  precision : Nat
  minExponent : Int
  maxExponent : Int
deriving DecidableEq, Repr

def binary64 : Format := ⟨53, -1022, 1023⟩

def binary32 : Format := ⟨24, -126, 127⟩

/-- A floating-point value: a rational, the negative zero, an infinity or no number at all. -/
inductive Floating where
  | finite (value : Rat)
  | negZero
  | infinite (negative : Bool)
  | nan
deriving DecidableEq, Repr, Inhabited

namespace Floating

def zero (negative : Bool) : Floating := if negative then negZero else finite 0

def signed : Floating → Bool
  | finite value => decide (value < 0)
  | negZero => true
  | infinite negative => negative
  | nan => false

def isZero : Floating → Bool
  | finite value => decide (value = 0)
  | negZero => true
  | _ => false

def toRat? : Floating → Option Rat
  | finite value => some value
  | negZero => some 0
  | _ => none

def neg : Floating → Floating
  | finite value => if value = 0 then negZero else finite (-value)
  | negZero => finite 0
  | infinite negative => infinite !negative
  | nan => nan

def abs (a : Floating) : Floating := if a.signed then a.neg else a

end Floating

namespace Format

/-- The value of the format nearest to a rational; beyond the range it is an infinity, and a value
that vanishes keeps its sign. -/
def round (f : Format) (q : Rat) : Floating :=
  if q = 0 then .finite 0
  else
    let unit := powInt 2 (max (log2 q) f.minExponent + 1 - f.precision)
    let r := roundTo unit q
    if r = 0 then .zero (decide (q < 0))
    else if powInt 2 (f.maxExponent + 1) ≤ magnitude r then .infinite (decide (q < 0))
    else .finite r

def convert (f : Format) : Floating → Floating
  | .finite value => f.round value
  | other => other

/-- The rounded sum. An exact zero is negative only when both summands are the negative zero. -/
def add (f : Format) : Floating → Floating → Floating
  | .nan, _ | _, .nan => .nan
  | .infinite a, .infinite b => if a = b then .infinite a else .nan
  | .infinite a, _ | _, .infinite a => .infinite a
  | .negZero, .negZero => .negZero
  | .negZero, b => b
  | a, .negZero => a
  | .finite a, .finite b => f.round (a + b)

def sub (f : Format) (a b : Floating) : Floating := f.add a b.neg

/-- The rounded product; its sign is that of the exact product also for zeros and infinities. -/
def mul (f : Format) (a b : Floating) : Floating :=
  let negative := a.signed != b.signed
  match a, b with
  | .nan, _ | _, .nan => .nan
  | .infinite _, b => if b.isZero then .nan else .infinite negative
  | a, .infinite _ => if a.isZero then .nan else .infinite negative
  | .finite a, .finite b => if a = 0 ∨ b = 0 then .zero negative else f.round (a * b)
  | _, _ => .zero negative

/-- The rounded quotient; a division by zero gives an infinity, or no number for `0 / 0`. -/
def div (f : Format) (a b : Floating) : Floating :=
  let negative := a.signed != b.signed
  match a, b with
  | .nan, _ | _, .nan => .nan
  | .infinite _, .infinite _ => .nan
  | .infinite _, _ => .infinite negative
  | _, .infinite _ => .zero negative
  | a, b =>
    match a.toRat?, b.toRat? with
    | some x, some y =>
      if y = 0 then (if x = 0 then .nan else .infinite negative)
      else if x = 0 then .zero negative
      else f.round (x / y)
    | _, _ => .nan

end Format

namespace Floating

/-- The order of two values; no number is comparable with nothing. -/
def compare? : Floating → Floating → Option Ordering
  | nan, _ | _, nan => none
  | infinite a, infinite b => some (if a = b then .eq else if a then .lt else .gt)
  | infinite a, _ => some (if a then .lt else .gt)
  | _, infinite b => some (if b then .gt else .lt)
  | a, b =>
    match a.toRat?, b.toRat? with
    | some x, some y => some (if x < y then .lt else if x = y then .eq else .gt)
    | _, _ => none

def sameValue (a b : Floating) : Bool := compare? a b == some .eq

end Floating

end Bladewright.Numeral
