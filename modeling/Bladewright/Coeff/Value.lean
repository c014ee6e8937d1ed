import Bladewright.Coeff.Basic
import Bladewright.Numeral.Elementary

/-!
What is known of an expression without looking at its form: whether it is real, its sign, whether it vanishes and
whether it is finite.
-/
namespace Bladewright

open Numeral

structure Point where
  re : Rat
  im : Rat
deriving DecidableEq, Repr, Inhabited

namespace Point

def keptBits : Nat := 256

def kept (z : Point) : Point := ⟨roundBits keptBits z.re, roundBits keptBits z.im⟩

def ofRat (q : Rat) : Point := ⟨q, 0⟩

def add (z w : Point) : Point := kept ⟨z.re + w.re, z.im + w.im⟩

def mul (z w : Point) : Point := kept ⟨z.re * w.re - z.im * w.im, z.re * w.im + z.im * w.re⟩

def norm (z : Point) : Rat := z.re * z.re + z.im * z.im

def tiny (q : Rat) : Bool := decide (magnitude q * Nat.pow 2 180 < 1)

def isZero (z : Point) : Bool := tiny z.re && tiny z.im

def isReal (z : Point) : Bool := tiny z.im

def log (z : Point) : Point :=
  kept ⟨Elementary.log z.norm / 2, if z.im = 0 && decide (0 < z.re) then 0 else Elementary.angle z.re z.im⟩

def exp? (z : Point) : Option Point :=
  if 100000 < magnitude z.re then none
  else
    let size := Elementary.exp z.re
    if z.im = 0 then some (kept ⟨size, 0⟩)
    else
      let (c, s) := Elementary.cosSin z.im
      some (kept ⟨size * c, size * s⟩)

def powNat (z : Point) : Nat → Point
  | 0 => ofRat 1
  | n + 1 => mul (powNat z n) z

def inv (z : Point) : Point := kept ⟨z.re / z.norm, -z.im / z.norm⟩

def pow? (z w : Point) : Option Point :=
  if z.isZero then (if w.isReal && decide (0 < w.re) then some (ofRat 0) else none)
  else if w.im = 0 && w.re.den = 1 && decide (magnitude w.re < 64) then
    let power := powNat z w.re.num.natAbs
    some (if w.re < 0 then power.inv else power)
  else exp? (mul w z.log)

end Point

namespace Coeff

def value? : Coeff → Option Point
  | num (.exact q) | num (.approx q) => some (.ofRat q)
  | num _ => none
  | const .pi => some (.ofRat Elementary.pi)
  | const .euler => some (.ofRat Elementary.e)
  | const .imaginary => some ⟨0, 1⟩
  | sym _ | app .. => none
  | pow b e => do Point.pow? (← b.value?) (← e.value?)
  | prod c fs => fs.attach.foldl (fun v ⟨f, _⟩ => do return Point.mul (← v) (← f.value?)) (c.toRat?.map .ofRat)
  | sum c ts => ts.attach.foldl (fun v ⟨t, _⟩ => do return Point.add (← v) (← t.value?)) (c.toRat?.map .ofRat)

/-- What is known of an expression; signs count infinities. -/
structure Facts where
  real : Option Bool := none
  positive : Option Bool := none
  negative : Option Bool := none
  zero : Option Bool := none
  finite : Option Bool := none
deriving Inhabited

namespace Facts

def ofPoint (z : Point) : Facts :=
  { real := some z.isReal
    positive := some (z.isReal && !z.isZero && decide (0 < z.re))
    negative := some (z.isReal && !z.isZero && decide (z.re < 0))
    zero := some z.isZero
    finite := some true }

def ofScalar : Scalar → Facts
  | .infinity s => ⟨some true, some (!s), some s, some false, some false⟩
  | .unsigned => ⟨some false, some false, some false, some false, some false⟩
  | .undefined => {}
  | .exact q | .approx q => ⟨some true, some (decide (0 < q)), some (decide (q < 0)), some (q == 0), some true⟩

def isNonnegative (f : Facts) : Bool := f.real == some true && f.negative == some false

def isNonpositive (f : Facts) : Bool := f.real == some true && f.positive == some false

end Facts

def facts : Coeff → Facts
  | num c => .ofScalar c
  | sym _ | app .. => {}
  | e =>
    if e.isNumeric then
      match e.value? with
      | some z => .ofPoint z
      | none => {}
    else {}

/-- The order of an expression that is a real number, or an infinity with a sign, beside a rational. -/
def compareWith? (e : Coeff) (q : Rat) : Option Ordering :=
  match e with
  | num (.infinity s) => some (if s then .lt else .gt)
  | e => do
    let z ← if e.isNumeric then e.value? else none
    if z.isReal then some (if Point.tiny (z.re - q) then .eq else if z.re < q then .lt else .gt) else none

end Coeff

end Bladewright
