import Bladewright.Coeff.Sum
import Bladewright.Coeff.Radical
import Bladewright.Numeral.Power

/-!
Powers of numbers and of the named constants. Roots of exact numbers have their whole part in front and a rational
denominator, a power with an approximate number in it is computed, and infinities follow the limits of the power.
-/
namespace Bladewright

open Numeral

namespace Scalar

def cutBits (bits : Nat) (q : Rat) : Rat :=
  if q = 0 then 0
  else
    let unit := powInt 2 (log2 q - bits + 1)
    let steps : Rat := (magnitude q / unit).floor
    if q < 0 then -(steps * unit) else steps * unit

def roundedRoot (bits : Nat) (q : Rat) : Rat := roundBits bits (Format.rootProxy bits q)

def widened : Nat := precision + 10

/-- A power of an approximate number above zero. Whole exponents and halves are computed by products,
others by the exponential function. -/
def realPower (b e : Rat) : Rat :=
  if e.den = 1 then approxPower precision b e.num
  else if e = 1 / 2 then roundedRoot precision b
  else if e = -1 / 2 then rounded (roundedRoot widened b)⁻¹
  else if e.den = 2 then approxPower precision (roundedRoot widened b) e.num
  else rounded (Elementary.exp (e * roundBits widened (Elementary.log b)))

/-- The real and the imaginary part of a power of an approximate number below zero, for an exponent that
is not whole. -/
def complexPower (b e : Rat) : Rat × Rat :=
  if e.den = 2 then
    let v := approxPower precision (cutBits widened (Format.rootProxy widened (-b))) e.num
    if e.num % 4 = 1 then (0, v) else (0, -v)
  else
    let size := roundBits (precision + 4)
      (Elementary.exp (cutBits widened (e * cutBits widened (Elementary.log (-b)))))
    let (c, s) := Elementary.cosSin (cutBits widened (e * cutBits widened Elementary.pi))
    (rounded (size * roundBits (precision + 4) c), rounded (size * roundBits (precision + 4) s))

end Scalar

namespace Coeff

/-- Products and powers, as far as the rules may use them. -/
structure Operations where
  mul : List Coeff → Coeff
  pow : Coeff → Coeff → Coeff

namespace Operations

def times (ops : Operations) : Coeff → Coeff → Coeff
  | num c, num d => num (c * d)
  | a, b => ops.mul [a, b]

def opposite (ops : Operations) : Coeff → Coeff
  | num c => num (-c)
  | e => ops.mul [ofInt (-1), e]

end Operations

def ofRat (q : Rat) : Coeff := num (.exact q)

def ofParts (re im : Rat) : Coeff :=
  let turned := if im = 0 then 0 else prod (.approx im) [const .imaginary]
  add (if re = 0 then 0 else num (.approx re)) turned

/-! ### Exact numbers -/

/-- Minus one to a power that is not whole: the exponent is brought between zero and one. -/
def signPower (ops : Operations) (e : Rat) : Option Coeff :=
  if e = 1 / 2 then some (const .imaginary)
  else if e.den = 2 then some (ops.pow (const .imaginary) (ofInt e.num))
  else
    let whole := e.floor
    if whole = 0 then none
    else some (ops.times (ofInt (if whole % 2 = 0 then 1 else -1)) (ops.pow (ofInt (-1)) (ofRat (e - whole))))

def integerRoot (ops : Operations) (n : Int) (e : Rat) : Option Coeff :=
  if n < 0 && e = 1 / 2 then some (ops.times (const .imaginary) (ops.pow (ofInt (-n)) (ofRat e)))
  else if e < 0 then
    if n < 0 then some (ops.times (ops.pow (ofInt (-1)) (ofRat e)) (ops.pow (ofRat (1 / (-n : Rat))) (ofRat (-e))))
    else some (ops.pow (ofRat (1 / (n : Rat))) (ofRat (-e)))
  else (radical? n.natAbs e.num.natAbs e.den).map fun r =>
    let sign := if n < 0 then ops.pow (ofInt (-1)) (ofRat e) else 1
    let roots := r.radicals.foldl (fun acc (b, p, q) =>
      ops.times acc (ops.pow (ofInt b) (ofRat ((p : Rat) / q)))) 1
    let rest := ops.pow (ofInt r.rest) (ofRat ((r.restPower : Rat) / e.den))
    ops.times (ops.times (ops.times (ofInt r.whole) roots) rest) sign

/-- A root of a fraction: its denominator is made rational. -/
def fractionRoot (ops : Operations) (b e : Rat) : Coeff :=
  if e < 0 then
    if b < 0 then ops.times (ops.pow (ofInt (-1)) (ofRat e)) (ops.pow (ofRat (-b)⁻¹) (ofRat (-e)))
    else ops.pow (ofRat b⁻¹) (ofRat (-e))
  else
    let whole := e.floor + 1
    let down := ops.pow (ofInt b.den) (ofRat (whole - e))
    let front := if b.num = 1 then down else ops.times (ops.pow (ofInt b.num) (ofRat e)) down
    ops.times front (ofRat (powInt b.den (-whole)))

def zeroPower (ops : Operations) (e : Coeff) : Option Coeff :=
  let known := e.facts
  if known.positive == some true then some 0
  else if known.negative == some true then some (num .unsigned)
  else if known.real == some false then some (num .undefined)
  else if known.zero == some true then some 1
  else
    let (c, t) := e.splitNumber
    if c.isNegative && c.isFinite then some (ops.pow (num .unsigned) t)
    else if c.isOne then none
    else some (ops.pow 0 t)

/-! ### Approximate numbers -/

def approxBase (e : Coeff) (b : Rat) (ops : Operations) : Option Coeff :=
  let known := e.facts
  if b = 0 && known.positive == some true then some (num (.approx 0))
  else if b = 0 && known.negative == some true then some (num .unsigned)
  else
    match e with
    | num (.exact q) =>
      if q.den = 1 then some (num (Scalar.power (.approx b) q.num))
      else if b < 0 && q.num = 1 && q.den % 2 = 1 then
        some (ops.times (pow (ofInt (-1)) e) (num (.approx (Scalar.realPower (-b) (Scalar.rounded q)))))
      else some (finite b (Scalar.rounded q))
    | num (.approx q) => some (finite b q)
    | num (.infinity negative) =>
      if b ≤ 0 || b = 1 then some (num .undefined)
      else some (if decide (b < 1) == negative then num (.infinity false) else 0)
    | _ => none
where
  finite (b e : Rat) : Coeff :=
    if 0 < b || e.den = 1 then num (.approx (if e.den = 1 then Scalar.approxPower Scalar.precision b e.num
      else Scalar.realPower b e))
    else
      let (re, im) := Scalar.complexPower b e
      ofParts re im

/-! ### All numbers -/

def infinitePower (e : Coeff) : Option Coeff :=
  let known := e.facts
  if known.positive == some true then some (num (.infinity false))
  else if known.negative == some true then some 0
  else if known.real == some false then
    e.value?.map fun z =>
      if Point.tiny z.re then num .undefined else if 0 < z.re then num .unsigned else 0
  else none

def negativeInfinitePower (ops : Operations) (e : Coeff) : Option Coeff :=
  match e with
  | num (.infinity _) => some (num .undefined)
  | e =>
    if !e.isNumeric then none
    else
      match e.toInt? with
      | some n => some (num (Scalar.power (.infinity true) n))
      | none =>
        let size := ops.pow (num (.infinity false)) e
        let sign := ops.pow (ofInt (-1)) e
        some (match size with
          | num (.exact 0) => 0
          | num .unsigned => num .unsigned
          | size => ops.times sign size)

/-- A number to a power other than zero and one, where the power is not left as it is. -/
def numberPower (ops : Operations) (c : Scalar) (e : Coeff) : Option Coeff :=
  match c with
  | .undefined => some (num .undefined)
  | .unsigned => match e with
    | num d => some (if d.isPositive && d.isFinite then num .unsigned else 0)
    | _ => none
  | .infinity false => infinitePower e
  | .infinity true => negativeInfinitePower ops e
  | .approx b => approxBase e b ops
  | .exact b =>
    if b = 0 then zeroPower ops e
    else
      match e with
      | num (.exact q) =>
        if q.den = 1 then some (num (c.power q.num))
        else if b = -1 then signPower ops q
        else if b.den = 1 then integerRoot ops b.num q
        else some (fractionRoot ops b q)
      | num (.approx q) => approxBase (num (.approx q)) (Scalar.rounded b) ops
      | num (.infinity negative) =>
        if b = -1 then some (num .undefined)
        else if !negative then none
        else if b.den ≠ 1 && decide (b < 0) then some (num .undefined)
        else some (ops.pow (ofRat b⁻¹) (num (.infinity false)))
      | _ => none

/-! ### Constants -/

def imaginaryPower (e : Coeff) : Option Coeff :=
  match e with
  | num (.exact q) =>
    if q.den = 1 then
      some (match q.num % 4 with
        | 0 => 1
        | 1 => const .imaginary
        | 2 => ofInt (-1)
        | _ => prod (.ofInt (-1)) [const .imaginary])
    else
      let turns := (q / 2).floor
      let rest := pow (const .imaginary) (ofRat (q - 2 * turns))
      some (if turns % 2 = 0 then rest else prod (.ofInt (-1)) [rest])
  | _ => none

def halfTurns? : Coeff → Option Scalar
  | prod c [const .pi, const .imaginary] | prod c [const .imaginary, const .pi] => some c
  | _ => none

def complexParts? : Coeff → Option (Scalar × Scalar)
  | sum c [const .imaginary] => some (c, 1)
  | sum c [prod d [const .imaginary]] => some (c, d)
  | _ => none

def expTerm (ops : Operations) (e : Coeff) : Option Coeff :=
  match e with
  | num .undefined | num .unsigned => some (num .undefined)
  | num (.infinity negative) => some (if negative then 0 else num (.infinity false))
  | num (.approx q) =>
    some (if q = 0 then 1 else num (.approx (Scalar.rounded (roundBits (Scalar.precision + 4) (Elementary.exp q)))))
  | num (.exact q) => if q = 0 then some 1 else if q = 1 then some (const .euler) else none
  | prod (.infinity negative) fs =>
    match (prod (if negative then .ofInt (-1) else 1) fs).value? with
    | none => none
    | some z =>
      if Point.tiny z.re then some (num .undefined)
      else if 0 < z.re then (if z.isReal then none else some (num .unsigned))
      else some 0
  | e =>
    match halfTurns? e with
    | some (.exact q) =>
      if q.den = 1 then some (ofInt (if q.num % 2 = 0 then 1 else -1))
      else if q.den = 2 then
        some (if q.num % 4 = 1 then const .imaginary else prod (.ofInt (-1)) [const .imaginary])
      else
        let rest := q - 2 * (q / 2).floor
        let rest := if 1 < rest then rest - 2 else rest
        if rest = q then none
        else some (pow (const .euler) (ops.mul [ofRat rest, const .pi, const .imaginary]))
    | _ => none

def expComplex? (e : Coeff) : Option Coeff := do
  let (c, d) ← complexParts? e
  if c.isApprox || d.isApprox then
    let z ← e.value?
    let w ← z.exp?
    let near := fun q => Scalar.rounded (roundBits (Scalar.precision + 4) q)
    return ofParts (near w.re) (near w.im)
  else none

/-- The exponential function, where its value has another form: terms that have a value of their own
come out of a sum as factors. -/
def expPower (ops : Operations) (e : Coeff) : Option Coeff :=
  match e with
  | sum c ts =>
    match expComplex? e with
    | some w => some w
    | none =>
      let parts := (sum c ts).summands.map fun t =>
        if t.isOne then (none, some t)
        else
          match expTerm ops t with
          | none => (none, some t)
          | some (pow (const .euler) t') => (none, some t')
          | some w => (some w, none)
      let out := parts.filterMap (·.1)
      let rest := addAll (parts.filterMap (·.2))
      if out.isEmpty && same rest e then none
      else some (ops.times (ops.mul out) (pow (const .euler) rest))
  | e => expTerm ops e

end Coeff

end Bladewright
