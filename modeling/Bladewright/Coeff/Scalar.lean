import Bladewright.Numeral.Rounding

/-!
Numbers that coefficients are made of: exact rationals, approximate numbers with 53 significant bits and any exponent,
and the infinities.
-/
namespace Bladewright

open Numeral

/-- Numbers: exact, approximate, infinite with and without a sign, and undefined. -/
inductive Scalar where
  | exact (value : Rat)
  | approx (value : Rat)
  | infinity (negative : Bool)
  | unsigned
  | undefined
deriving DecidableEq, Repr, Inhabited

namespace Scalar

def precision : Nat := 53

def rounded (q : Rat) : Rat := roundBits precision q

def ofRounding (q : Rat) : Scalar := if q = 0 then exact 0 else approx (rounded q)

def ofInt (n : Int) : Scalar := exact n

instance : OfNat Scalar n := ⟨exact n⟩

def isZero : Scalar → Bool
  | exact q | approx q => q == 0
  | _ => false

def isOne (a : Scalar) : Bool := a == 1

def isNegative : Scalar → Bool
  | exact q | approx q => decide (q < 0)
  | infinity negative => negative
  | _ => false

def isPositive : Scalar → Bool
  | exact q | approx q => decide (0 < q)
  | infinity negative => !negative
  | _ => false

def isFinite : Scalar → Bool
  | exact _ | approx _ => true
  | _ => false

def isApprox : Scalar → Bool
  | approx _ => true
  | _ => false

def toInt? : Scalar → Option Int
  | exact q => if q.den = 1 then some q.num else none
  | _ => none

def toExact? : Scalar → Option Rat
  | exact q => some q
  | _ => none

def toRat? : Scalar → Option Rat
  | exact q | approx q => some q
  | _ => none

def neg : Scalar → Scalar
  | exact q => exact (-q)
  | approx q => approx (-q)
  | infinity negative => infinity !negative
  | unsigned => unsigned
  | undefined => undefined

def add : Scalar → Scalar → Scalar
  | undefined, _ | _, undefined => undefined
  | unsigned, unsigned | unsigned, infinity _ | infinity _, unsigned => undefined
  | unsigned, _ | _, unsigned => unsigned
  | infinity a, infinity b => if a = b then infinity a else undefined
  | infinity a, _ | _, infinity a => infinity a
  | exact a, exact b => exact (a + b)
  | approx a, approx b => ofRounding (a + b)
  | approx a, exact b => ofRounding (a + rounded b)
  | exact a, approx b => ofRounding (rounded a + b)

def mul : Scalar → Scalar → Scalar
  | undefined, _ | _, undefined => undefined
  | unsigned, b => if b.isZero then undefined else unsigned
  | a, unsigned => if a.isZero then undefined else unsigned
  | infinity a, b => if b.isZero then undefined else infinity (a != b.isNegative)
  | a, infinity b => if a.isZero then undefined else infinity (b != a.isNegative)
  | exact a, exact b => exact (a * b)
  | approx a, approx b => ofRounding (a * b)
  | approx a, exact b => ofRounding (a * rounded b)
  | exact a, approx b => ofRounding (rounded a * b)

instance : Neg Scalar := ⟨neg⟩
instance : Add Scalar := ⟨add⟩
instance : Mul Scalar := ⟨mul⟩

/-- The integer part of a positive number at the given bits, and the exponent that goes with it; what
does not fit is cut off. -/
def truncated (bits : Nat) (m : Nat) (k : Int) : Nat × Int :=
  let size := m.log2 + 1
  if bits < size then (m / Nat.pow 2 (size - bits), k + (size - bits : Nat)) else (m, k)

/-- The power `(m * 2 ^ k) ^ n` by repeated squaring with cut-off products, times a first factor. -/
def powerLoop (bits : Nat) : Nat → Nat → Nat × Int → Nat × Int → Nat × Int
  | 0, _, product, _ => product
  | fuel + 1, n, (p, l), (m, k) =>
    let product := if n % 2 = 1 then truncated bits (p * m) (l + k) else (p, l)
    if n < 2 then product else powerLoop bits fuel (n / 2) product (truncated bits (m * m) (k + k))

def oddPart : Nat → Nat → Nat × Nat
  | 0, n => (n, 0)
  | fuel + 1, n =>
    if n = 0 ∨ n % 2 = 1 then (n, 0)
    else
      let (m, k) := oddPart fuel (n / 2)
      (m, k + 1)

def mantissa (q : Rat) : Bool × Nat × Int :=
  let (m, k) := oddPart (q.num.natAbs.log2 + 1) q.num.natAbs
  (decide (q < 0), m, (k : Int) - q.den.log2)

/-- A power of a number other than zero with an exponent of at least one, to the given number of bits:
exact before the rounding as long as it is short, and by cut-off products otherwise. -/
def naturalPower (bits : Nat) (q : Rat) (n : Nat) : Rat :=
  let (negative, m, k) := mantissa q
  if n ≤ 2 || m = 1 || (m.log2 + 1) * n < 1000 then roundBits bits (powInt q n)
  else
    let (p, l) := powerLoop (bits + 4 * (n.log2 + 1) + 4) (n.log2 + 1) n (1, 0) (m, k)
    let size := roundBits bits (p * powInt 2 l)
    if negative && n % 2 = 1 then -size else size

/-- A power of an approximate number other than zero to the given number of bits. The power with a
negative exponent is the reciprocal of the power with five bits more. -/
def approxPower (bits : Nat) (q : Rat) (n : Int) : Rat :=
  if 0 ≤ n then naturalPower bits q n.toNat
  else if n = -1 then roundBits bits q⁻¹
  else roundBits bits (naturalPower (bits + 5) q (-n).toNat)⁻¹

/-- The power with an integer exponent other than zero; zero to a negative power is the infinity
of no direction. -/
def power (a : Scalar) (n : Int) : Scalar :=
  match a with
  | exact q => if q = 0 ∧ n < 0 then unsigned else exact (powInt q n)
  | approx q =>
    if q = 0 then (if n < 0 then unsigned else approx 0) else approx (approxPower precision q n)
  | infinity negative => if n < 0 then 0 else infinity (negative && n % 2 == 1)
  | unsigned => if n < 0 then 0 else unsigned
  | undefined => undefined

def rank : Scalar → Nat
  | exact q =>
    if q = 0 then 0
    else if q = 1 then 1
    else if q = 1 / 2 then 2
    else if q = -1 then 5
    else if q.den = 1 then 7
    else 8
  | infinity false => 3
  | undefined => 4
  | infinity true => 6
  | approx _ => 9
  | unsigned => 100

/-- The order of numbers among factors and terms: by kind, then by numerator and denominator, or by
sign, mantissa and exponent. -/
def cmp (a b : Scalar) : Ordering :=
  (compare a.rank b.rank).then <|
    match a, b with
    | exact p, exact q => (compare p.num q.num).then (compare p.den q.den)
    | approx p, approx q =>
      let (s, m, k) := mantissa p
      let (t, n, l) := mantissa q
      (compare s t).then ((compare m n).then (compare k l))
    | _, _ => .eq

def cmpValue (a b : Scalar) : Ordering :=
  match a, b with
  | exact p, exact q | exact p, approx q | approx p, exact q | approx p, approx q =>
    if p < q then .lt else if q < p then .gt else .eq
  | infinity s, infinity t => compare t s
  | infinity s, exact _ | infinity s, approx _ => if s then .lt else .gt
  | exact _, infinity t | approx _, infinity t => if t then .gt else .lt
  | exact _, _ | approx _, _ | infinity _, _ => .lt
  | _, exact _ | _, approx _ | _, infinity _ => .gt
  | _, _ => .eq

end Scalar

end Bladewright
