import Bladewright.Numeral.Rounding

/-!
Elementary functions of exact rationals, to far more bits than any format keeps: exponential and logarithm, circular
functions and the angle of a point.
-/
namespace Bladewright.Numeral.Elementary

def places : Nat := 320

def one : Int := Nat.pow 2 places

def fixed (q : Rat) : Int := (q * one).floor

def ofFixed (n : Int) : Rat := (n : Rat) / one

def times (a b : Int) : Int := (a * b).fdiv one

/-- A power series with factor `x` from term to term, each divided by the next of the numbers that
start at `n` and go up by `step`; `quotient` tells whether the division stays in the term. -/
def series (quotient : Bool) (x : Int) (step : Nat) : Nat → Nat → Int → Int → Int
  | 0, _, _, acc => acc
  | fuel + 1, n, term, acc =>
    let next := times term x
    let divided := next.tdiv n
    if divided = 0 then acc
    else series quotient x step fuel (n + step) (if quotient then divided else next) (acc + divided)

def atanh (x : Int) : Int := series false (times x x) 2 (4 * places) 3 x x

def ln2 : Int :=
  18 * atanh (one.fdiv 26) - 2 * atanh (one.fdiv 4801) + 8 * atanh (one.fdiv 8749)

def atanSmall (x : Int) : Int := series false (-times x x) 2 (4 * places) 3 x x

def piFixed : Int := 16 * atanSmall (one.fdiv 5) - 4 * atanSmall (one.fdiv 239)

def pi : Rat := ofFixed piFixed

def log (q : Rat) : Rat :=
  let k := log2 q
  let m := q / powInt 2 k
  ofFixed (2 * atanh (fixed ((m - 1) / (m + 1))) + k * ln2)

def exp (q : Rat) : Rat :=
  let k := (fixed q).fdiv ln2
  let r := fixed q - k * ln2
  let small := r.fdiv 256
  let start := series true small 1 places 2 small (one + small)
  let value := (List.range 8).foldl (fun v _ => times v v) start
  ofFixed value * powInt 2 k

def e : Rat := exp 1

def circular (x : Int) : Nat → Nat → Int → Int → Int
  | 0, _, _, acc => acc
  | fuel + 1, n, term, acc =>
    let next := -(times term (times x x)).tdiv ((n + 1) * (n + 2))
    if next = 0 then acc else circular x fuel (n + 2) next (acc + next)

def cosSin (q : Rat) : Rat × Rat :=
  let turn := 2 * piFixed
  let n := fixed q
  let r := n - turn * ((2 * n + turn).fdiv (2 * turn))
  (ofFixed (circular r places 0 one one), ofFixed (circular r places 1 r r))

def sqrtFixed (x : Int) : Int := rootCeil 2 (x * one).toNat

def atanUnit (x : Int) : Int :=
  let halved := fun y => (y * one).fdiv (one + sqrtFixed (one + times y y))
  4 * atanSmall (halved (halved x))

def angle (x y : Rat) : Rat :=
  let a := magnitude x
  let b := magnitude y
  let acute := if b ≤ a then atanUnit (fixed (b / a)) else piFixed.fdiv 2 - atanUnit (fixed (a / b))
  let upper := if x < 0 then piFixed - acute else acute
  ofFixed (if y < 0 then -upper else upper)

end Bladewright.Numeral.Elementary
