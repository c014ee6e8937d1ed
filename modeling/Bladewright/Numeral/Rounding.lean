/-!
Rounding of exact rationals: to the nearest integer, to the nearest multiple of a unit and to a number of significant
bits. A tie always goes to the even neighbour.
-/
namespace Bladewright.Numeral

/-- The integer nearest to `num / den`; of two equally near ones, the even one. -/
def roundDiv (num : Int) (den : Nat) : Int :=
  let low := num.fdiv den
  match compare (2 * num.fmod den) den with
  | .lt => low
  | .gt => low + 1
  | .eq => if low % 2 = 0 then low else low + 1

def nearest (q : Rat) : Int := roundDiv q.num q.den

def powInt (base : Rat) (k : Int) : Rat :=
  if 0 ≤ k then base ^ k.toNat else (base ^ (-k).toNat)⁻¹

def magnitude (q : Rat) : Rat := if q < 0 then -q else q

/-- The greatest `k` with `2 ^ k ≤ |q|`, for `q` other than zero. -/
def log2 (q : Rat) : Int :=
  let k : Int := (q.num.natAbs.log2 : Int) - q.den.log2
  if powInt 2 k ≤ magnitude q then k else k - 1

def roundTo (unit q : Rat) : Rat := nearest (q / unit) * unit

def roundBits (bits : Nat) (q : Rat) : Rat :=
  if q = 0 then 0 else roundTo (powInt 2 (log2 q + 1 - bits)) q

def digitCount (n : Nat) : Nat := (Nat.toDigits 10 n).length

/-- The greatest `k` with `10 ^ k ≤ |q|`, for `q` other than zero. -/
def log10 (q : Rat) : Int :=
  let k : Int := (digitCount q.num.natAbs : Int) - digitCount q.den
  if powInt 10 k ≤ magnitude q then k else k - 1

def rootCeil (degree n : Nat) : Nat :=
  let rec search : Nat → Nat → Nat → Nat
    | 0, low, _ => low
    | steps + 1, low, high =>
      if low < high then
        let middle := (low + high) / 2
        if Nat.pow middle degree < n then search steps (middle + 1) high else search steps low middle
      else low
  search (n.log2 + 2) 0 (Nat.pow 2 (n.log2 / degree + 1))

def exactRoot? (degree n : Nat) : Option Nat :=
  let root := rootCeil degree n
  if Nat.pow root degree = n then some root else none

end Bladewright.Numeral
