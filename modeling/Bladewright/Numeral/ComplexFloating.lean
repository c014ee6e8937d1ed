import Bladewright.Numeral.Elementary
import Bladewright.Numeral.Power

/-!
Complex numbers with parts in the double format. Every operation is put together from operations on the parts, each of
which is rounded.
-/
namespace Bladewright.Numeral

structure ComplexFloating where
  re : Floating
  im : Floating
deriving DecidableEq, Repr, Inhabited

namespace ComplexFloating

def ofReal (x : Floating) : ComplexFloating := ⟨x, .finite 0⟩

def isZero (a : ComplexFloating) : Bool := a.re.isZero && a.im.isZero

def isInfinite : ComplexFloating → Bool
  | ⟨.infinite _, _⟩ | ⟨_, .infinite _⟩ => true
  | _ => false

def add (a b : ComplexFloating) : ComplexFloating := ⟨binary64.add a.re b.re, binary64.add a.im b.im⟩

def sub (a b : ComplexFloating) : ComplexFloating := ⟨binary64.sub a.re b.re, binary64.sub a.im b.im⟩

def mul (a b : ComplexFloating) : ComplexFloating :=
  ⟨binary64.sub (binary64.mul a.re b.re) (binary64.mul a.im b.im),
   binary64.add (binary64.mul a.re b.im) (binary64.mul a.im b.re)⟩

/-- The quotient, if the divisor is not zero. The smaller part of the divisor is brought to a ratio
of the greater one first. -/
def div? (a b : ComplexFloating) : Option ComplexFloating :=
  match Floating.compare? b.re.abs b.im.abs with
  | none => some ⟨.nan, .nan⟩
  | some .lt =>
    let ratio := binary64.div b.re b.im
    let divisor := binary64.add (binary64.mul b.re ratio) b.im
    some ⟨binary64.div (binary64.add (binary64.mul a.re ratio) a.im) divisor,
      binary64.div (binary64.sub (binary64.mul a.im ratio) a.re) divisor⟩
  | some _ =>
    if b.re.isZero then none
    else
      let ratio := binary64.div b.im b.re
      let divisor := binary64.add b.re (binary64.mul b.im ratio)
      some ⟨binary64.div (binary64.add a.re (binary64.mul a.im ratio)) divisor,
        binary64.div (binary64.sub a.im (binary64.mul a.re ratio)) divisor⟩

/-- The product of a number and a power of a base, by repeated squaring; so many bits of the exponent
are used. -/
def mulPower : Nat → Nat → ComplexFloating → ComplexFloating → ComplexFloating
  | 0, _, _, product => product
  | bits + 1, n, base, product =>
    if n = 0 then product
    else mulPower bits (n / 2) (base.mul base) (if n % 2 = 1 then product.mul base else product)

def wholePower? (a : ComplexFloating) (n : Int) : Option ComplexFloating :=
  let power := mulPower (n.natAbs.log2 + 1) n.natAbs a (ofReal (.finite 1))
  if 0 < n then some power else (ofReal (.finite 1)).div? power

def size (a : ComplexFloating) : Floating :=
  if a.isInfinite then .infinite false
  else match a.re.toRat?, a.im.toRat? with
    | some x, some y =>
      let square := x * x + y * y
      if square = 0 then .finite 0 else binary64.round (Format.rootProxy binary64.precision square)
    | _, _ => .nan

/-- The direction of a number other than zero with finite parts. On the real axis it takes the sign of
the imaginary part, which is a zero there. -/
def direction (x y : Rat) (negative : Bool) : Floating :=
  if y = 0 then
    if 0 < x then .zero negative
    else let half := binary64.round Elementary.pi
      if negative then half.neg else half
  else binary64.round (Elementary.angle x y)

def cosSin (phase : Floating) : Floating × Floating :=
  match phase.toRat? with
  | some q =>
    let (c, s) := Elementary.cosSin q
    (binary64.round c, if q = 0 then phase else binary64.round s)
  | none => (.nan, .nan)

/-- A power of a number, by its size and its direction; a power of zero has a value if the exponent is
real and not negative. -/
def power? (a b : ComplexFloating) : Option ComplexFloating :=
  if b.isZero then some (ofReal (.finite 1))
  else if a.isZero then
    if b.im.isZero && !b.re.signed then some (ofReal (.finite 0)) else none
  else match a.re.toRat?, a.im.toRat?, b.re.toRat?, b.im.toRat?, a.size with
    | some x, some y, some p, some q, .finite r =>
      let turn := direction x y a.im.signed
      let length := if p.den = 1 then binary64.power (.finite r) p.num else binary64.realPower r p
      let exponent := (binary64.mul turn (.finite q)).toRat?.getD 0
      let length := if q = 0 then length else binary64.div length (binary64.round (Elementary.exp exponent))
      let phase := binary64.mul turn (.finite p)
      let phase :=
        if q = 0 then phase
        else binary64.add phase (binary64.mul (.finite q) (binary64.round (Elementary.log r)))
      let (c, s) := cosSin phase
      some ⟨binary64.mul length c, binary64.mul length s⟩
    | _, _, _, _, _ => some ⟨.nan, .nan⟩

def pow? (a b : ComplexFloating) : Option ComplexFloating :=
  match b.im.isZero, b.re.toRat? with
  | true, some q => if q.den = 1 && q.num.natAbs ≤ 100 then wholePower? a q.num else power? a b
  | _, _ => power? a b

end ComplexFloating

end Bladewright.Numeral
