import Bladewright.Coeff.Scalar
import Bladewright.Numeral.Decimal

/-!
Text of numbers: exact ones as fractions, approximate ones with fifteen significant digits.
-/
namespace Bladewright.Scalar

open Numeral

def shownDigits : Nat := 15

def digitsOf (q : Rat) : List Char × Int :=
  let d := Decimal.significant shownDigits q
  (Nat.toDigits 10 d.digits, d.exponent + shownDigits - 1)

/-- Digits without trailing zeros after the point; one digit after it stays. -/
def stripZeros (cs : List Char) : List Char :=
  let kept := (cs.reverse.dropWhile (· == '0')).reverse
  if kept.getLast? == some '.' then kept ++ ['0'] else kept

/-- The text of a positive approximate number: positional for decimal exponents from -4 to 14,
scientific otherwise. Inside a larger expression trailing zeros are left out. -/
def approxBody (inside : Bool) (q : Rat) : List Char :=
  let (digits, exponent) := digitsOf q
  let strip := fun cs => if inside then stripZeros cs else cs
  if -5 < exponent ∧ exponent < 15 then
    if exponent < 0 then strip (withPoint (zeros (-exponent).toNat ++ digits) 1)
    else strip (withPoint digits (exponent.toNat + 1))
  else
    strip (withPoint digits 1) ++ 'e' :: (if exponent < 0 then '-' else '+') :: Nat.toDigits 10 exponent.natAbs

def exactText (q : Rat) : String :=
  if q.den = 1 then toString q.num else toString q.num ++ "/" ++ toString q.den

def isWritable : Scalar → Bool
  | exact q => Numeral.isWritable q.num && Numeral.isWritable q.den
  | _ => true

def text (inside : Bool) : Scalar → String
  | exact q => exactText q
  | approx q =>
    if q = 0 then "0.0"
    else
      let body := approxBody inside (magnitude q)
      String.ofList (if q < 0 then '-' :: body else body)
  | infinity negative => if negative then "-oo" else "oo"
  | unsigned => "zoo"
  | undefined => "nan"

/-- The text of an approximate number in a listing of components: positional from `1e-6` on as long
as all shown digits have their place, and a capital before the exponent. -/
def listedApprox (q : Rat) : String :=
  if q = 0 then "0.0"
  else
    let (digits, exponent) := digitsOf (magnitude q)
    let body :=
      if exponent = 14 then digits
      else if -7 < exponent ∧ exponent < 14 then
        if exponent < 0 then withPoint (zeros (-exponent).toNat ++ digits) 1
        else withPoint digits (exponent.toNat + 1)
      else
        withPoint digits 1 ++ 'E' :: (if exponent < 0 then '-' else '+') :: Nat.toDigits 10 exponent.natAbs
    String.ofList (if q < 0 then '-' :: body else body)

end Bladewright.Scalar
