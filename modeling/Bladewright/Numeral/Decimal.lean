import Bladewright.Numeral.Floating

/-!
Decimal text of numbers: the fewest digits that read back as the same double, a fixed number of significant digits,
and the notations in which they are written.
-/
namespace Bladewright.Numeral

/-- The most decimal digits that an integer is read or written with. -/
def digitLimit : Nat := 4300

def isWritable (n : Int) : Bool := decide (n.natAbs < Nat.pow 10 digitLimit)

structure Decimal where
  digits : Nat
  exponent : Int
deriving DecidableEq, Repr

namespace Decimal

def toRat (d : Decimal) : Rat := d.digits * powInt 10 d.exponent

/-- The value of a format nearest to a decimal. A decimal with its first digit far from the point is beyond the range of
every format. -/
def round (f : Format) (d : Decimal) : Floating :=
  let point := digitCount d.digits + d.exponent
  if d.digits = 0 then .finite 0
  else if 400 < point then .infinite false
  else if point < -400 then .finite 0
  else f.round d.toRat

/-- The decimal equal to a value of a format, with as many decimal places as its last binary place has. -/
def exact (f : Format) (q : Rat) : Decimal :=
  let places := (f.precision - 1 - f.minExponent).toNat
  ⟨(q * powInt 10 places).floor.toNat, -places⟩

def neighbours (count : Nat) (q : Rat) : Decimal × Decimal :=
  let exponent := log10 q + 1 - count
  let low := (q / powInt 10 exponent).floor.toNat
  (⟨low, exponent⟩, ⟨low + 1, exponent⟩)

def readsBack? (f : Format) (q : Rat) (count : Nat) : Option Decimal :=
  let (low, high) := neighbours count q
  let below := low.round f = .finite q
  let above := high.round f = .finite q
  if below ∧ above then
    some (if q - low.toRat < high.toRat - q then low
      else if high.toRat - q < q - low.toRat then high
      else if low.digits % 2 = 0 then low else high)
  else if below then some low
  else if above then some high
  else none

/-- The decimal with the fewest digits that reads back as the positive value `q` of the format. -/
def shortest (f : Format) (q : Rat) : Decimal :=
  let rec search : Nat → Nat → Decimal
    | 0, _ => exact f q
    | steps + 1, count => (readsBack? f q count).getD (search steps (count + 1))
  search 17 1

/-- The digits without trailing zeros, and the place of the decimal point counted from the left. -/
def normal (d : Decimal) : List Char × Int :=
  let digits := Nat.toDigits 10 d.digits
  let kept := (digits.reverse.dropWhile (· == '0')).reverse
  (if kept.isEmpty then ['0'] else kept, digits.length + d.exponent)

/-- `count` significant digits of a positive rational: the expansion is cut one digit later and
that digit rounds the rest, five upwards. -/
def significant (count : Nat) (q : Rat) : Decimal :=
  let (cut, _) := neighbours (count + 1) q
  let kept := cut.digits / 10
  let kept := if 5 ≤ cut.digits % 10 then kept + 1 else kept
  if kept = Nat.pow 10 count then ⟨Nat.pow 10 (count - 1), cut.exponent + 2⟩ else ⟨kept, cut.exponent + 1⟩

end Decimal

def zeros (n : Nat) : List Char := List.replicate n '0'

def withPoint (digits : List Char) (split : Nat) : List Char :=
  digits.take split ++ '.' :: digits.drop split

def positional (digits : List Char) (point : Int) : List Char :=
  if point ≤ 0 then '0' :: '.' :: (zeros (-point).toNat ++ digits)
  else if digits.length ≤ point.toNat then
    digits ++ zeros (point.toNat - digits.length) ++ ['.', '0']
  else withPoint digits point.toNat

def signedExponent (k : Int) : List Char :=
  let digits := Nat.toDigits 10 k.natAbs
  (if k < 0 then '-' else '+') :: (zeros (2 - digits.length) ++ digits)

def scientific (digits : List Char) (point : Int) : List Char :=
  let mantissa := match digits with
    | [d] => [d]
    | _ => withPoint digits 1
  mantissa ++ 'e' :: signedExponent (point - 1)

/-- The shortest text that reads back as the double: positional from `1e-4` up to `1e16`. -/
def Floating.text : Floating → String
  | .nan => "nan"
  | .infinite negative => if negative then "-inf" else "inf"
  | .negZero => "-0.0"
  | .finite value =>
    if value = 0 then "0.0"
    else
      let (digits, point) := (Decimal.shortest binary64 (magnitude value)).normal
      let body := if -4 < point ∧ point ≤ 16 then positional digits point else scientific digits point
      String.ofList (if value < 0 then '-' :: body else body)

end Bladewright.Numeral
