import Bladewright.Numeral.Floating

/-!
Powers and square roots of floating-point numbers. Roots and powers with integer exponents are correctly rounded;
powers with a fraction are computed to well over a hundred bits and then rounded.
-/
namespace Bladewright.Numeral.Format

def powerSigned (x : Floating) (n : Int) : Bool := x.signed && n % 2 != 0

/-- A power that lies so far beyond the range of the format that it need not be computed. -/
def farPower? (f : Format) (q : Rat) (n : Int) : Option Bool :=
  let size := log2 q * n
  let bound : Int := 4 * (f.maxExponent + f.precision)
  if bound < size then some true else if (log2 q + 1) * n < -bound && size < -bound then some false else none

def power (f : Format) (x : Floating) (n : Int) : Floating :=
  let negative := powerSigned x n
  if n = 0 then .finite 1
  else match x with
    | .nan => .nan
    | .infinite _ => if 0 < n then .infinite negative else .zero negative
    | .negZero => if 0 < n then .zero negative else .infinite negative
    | .finite q =>
      if q = 0 then (if 0 < n then .finite 0 else .infinite false)
      else if magnitude q = 1 then .finite (if negative then -1 else 1)
      else match farPower? f q n with
        | some true => .infinite negative
        | some false => .zero negative
        | none => f.round (powInt q n)

/-- A rational that rounds like the square root of a positive one: the root itself if it is short,
else a number between it and the next shorter one. -/
def rootProxy (bits : Nat) (q : Rat) : Rat :=
  let k : Int := bits + 2 - log2 q / 2
  let scaled := q * powInt 4 k
  let root := rootCeil 2 scaled.floor.toNat
  let root := if root * root ≤ scaled.floor.toNat then root else root - 1
  let exact : Bool := ((root * root : Nat) : Rat) == scaled
  (if exact then (root : Rat) else (2 * root + 1 : Rat) / 2) / powInt 2 k

def sqrt (f : Format) : Floating → Floating
  | .nan => .nan
  | .negZero => .negZero
  | .infinite negative => if negative then .nan else .infinite false
  | .finite q => if q = 0 then .finite 0 else if q < 0 then .nan else f.round (rootProxy f.precision q)

def workingBits : Nat := 320

def usedBits : Nat := 130

/-- The bits of the binary logarithm of a number from one to two, given as a multiple of a small unit:
squaring doubles the logarithm, and its next bit tells whether two is reached. -/
def logBits : Nat → Nat → Nat → Nat
  | 0, acc, _ => acc
  | n + 1, acc, m =>
    let square := m * m / Nat.pow 2 workingBits
    if Nat.pow 2 (workingBits + 1) ≤ square then logBits n (2 * acc + 1) (square / 2)
    else logBits n (2 * acc) square

def binaryLog (q : Rat) : Rat :=
  let k := log2 q
  let scaled := q * powInt 2 (workingBits - k)
  (k : Rat) + (logBits usedBits 0 scaled.floor.toNat : Rat) / powInt 2 usedBits

/-- The product of the repeated square roots of two that the bits of a fraction select. -/
def rootProduct : Nat → Nat → Nat → Nat → Nat
  | 0, _, _, acc => acc
  | n + 1, root, fraction, acc =>
    let root := rootCeil 2 (root * Nat.pow 2 workingBits)
    let acc := if fraction.testBit n then acc * root / Nat.pow 2 workingBits else acc
    rootProduct n root fraction acc

def binaryExp (z : Rat) : Rat :=
  let k := z.floor
  let fraction := ((z - k) * powInt 2 usedBits).floor.toNat
  let one := Nat.pow 2 workingBits
  (rootProduct usedBits (2 * one) fraction one : Rat) * powInt 2 (k - workingBits)

def realPower (f : Format) (x y : Rat) : Floating :=
  let z := y * binaryLog x
  let bound : Rat := 2 * (f.maxExponent + f.precision)
  if bound < z then .infinite false
  else if z < -bound then .finite 0
  else f.round (binaryExp z)

end Bladewright.Numeral.Format
