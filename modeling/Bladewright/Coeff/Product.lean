import Bladewright.Coeff.Powers

/-!
Products and powers. Numbers are multiplied up, powers of one base gathered and roots joined; a number times a single
sum is distributed over it. Powers of powers and of products are resolved where that holds for all values.
-/
namespace Bladewright.Coeff

open Numeral

/-! ### Gathering powers -/

/-- Adds an exponent to the base that it belongs to. Exponents of one base are added up when they
differ only in their numbers. -/
def gatherPower (powers : List (Coeff × List (Coeff × Scalar))) (b e : Coeff) :
    List (Coeff × List (Coeff × Scalar)) :=
  let (c, t) := splitNumber e
  match powers with
  | [] => [(b, [(t, c)])]
  | (b', es) :: rest =>
    if same b b' then (b', gatherExponent es t c) :: rest else (b', es) :: gatherPower rest b e
where
  gatherExponent (es : List (Coeff × Scalar)) (t : Coeff) (c : Scalar) : List (Coeff × Scalar) :=
    match es with
    | [] => [(t, c)]
    | (t', c') :: rest => if same t t' then (t', c' + c) :: rest else (t', c') :: gatherExponent rest t c

def gather (ops : Operations) (powers : List (Coeff × Coeff)) : List (Coeff × Coeff) :=
  (powers.foldl (fun acc (b, e) => gatherPower acc b e) []).flatMap fun (b, es) =>
    es.map fun (t, c) => (b, match t with
      | sum .. => if c.isOne then t else ops.mul [num c, t]
      | t => if c.isZero then num c else scaleTerm c t)

def ofFactors (c : Scalar) (factors : List Coeff) : Coeff :=
  match factors with
  | [] => num c
  | [sum d ts] =>
    if c.isOne then sum d ts else if c.isFinite then distribute c d ts else prod c [sum d ts]
  | [f] => if c.isOne then f else prod c [f]
  | fs => prod c fs

/-! ### Sorting the factors of a product -/

/-- Factors in the order in which a product takes them up: the parts of a nested product and the value of
a root with a negative exponent go to the end. -/
def takeUp (ops : Operations) : Nat → List Coeff → List Coeff → List Coeff
  | 0, queue, taken => taken.reverse ++ queue
  | _ + 1, [], taken => taken.reverse
  | fuel + 1, e :: queue, taken =>
    match e with
    | prod .. => takeUp ops fuel (queue ++ e.multiplicands) taken
    | pow (num _) (num _) =>
      match e.baseExponent with
      | (b, num (.exact q)) =>
        if q.den ≠ 1 && decide (q < 0) then takeUp ops fuel (queue ++ [ops.pow b (num (.exact q))]) taken
        else takeUp ops fuel queue (e :: taken)
      | _ => takeUp ops fuel queue (e :: taken)
    | e => takeUp ops fuel queue (e :: taken)

/-- The factors of a product, sorted by what becomes of them. -/
structure Sorted where
  number : Scalar := 1
  turn : Rat := 0
  roots : List (Scalar × Rat) := []
  numeric : List (Coeff × Coeff) := []
  powers : List (Coeff × Coeff) := []

def gatherRoot (roots : List (Scalar × Rat)) (b : Scalar) (e : Rat) : List (Scalar × Rat) :=
  match roots with
  | [] => [(b, e)]
  | (b', e') :: rest => if b = b' then (b', e' + e) :: rest else (b', e') :: gatherRoot rest b e

def Sorted.take (ops : Operations) (s : Sorted) (factor : Coeff) : Sorted :=
  match factor with
  | num c => { s with number := s.number * c }
  | const .imaginary => { s with turn := s.turn + 1 / 2 }
  | e =>
    match e.baseExponent with
    | (num c, num (.exact q)) =>
      if q.den = 1 then
        match ops.pow (num c) (num (.exact q)) with
        | num d => { s with number := s.number * d }
        | _ => { s with powers := (num c, num (.exact q)) :: s.powers }
      else
        let negative := c.isNegative
        let size := if negative then -c else c
        { s with
          turn := if negative then s.turn + q else s.turn
          roots := if size.isOne then s.roots else gatherRoot s.roots size q }
    | (num c, x) =>
      if c.isPositive && c.isFinite then { s with numeric := (num c, x) :: s.numeric }
      else { s with powers := (num c, x) :: s.powers }
    | (b, x) => { s with powers := (b, x) :: s.powers }

def sortFactors (ops : Operations) (factors : List Coeff) : Sorted :=
  let s := factors.foldl (Sorted.take ops) {}
  { s with numeric := s.numeric.reverse, powers := s.powers.reverse }

/-! ### Roots -/

def gatherDegree (roots : List (Rat × Scalar)) (e : Rat) (b : Scalar) : List (Rat × Scalar) :=
  match roots with
  | [] => [(e, b)]
  | (e', b') :: rest => if e = e' then (e', b' * b) :: rest else (e', b') :: gatherDegree rest e b

/-- The greatest number that two positive numbers are whole multiples of. -/
def commonPart : Scalar → Scalar → Rat
  | .exact a, .exact b => mkRat (Nat.gcd a.num.natAbs b.num.natAbs) (Nat.lcm a.den b.den)
  | _, _ => 1

def splitExponent (b : Scalar) (e : Rat) : Scalar × Rat :=
  if e.den = 1 then (b.power e.num, 0)
  else if 1 < e then (b.power e.floor, e - e.floor)
  else (1, e)

/-- Takes the common part of a root and each of the following ones out of both. Gives what is left of the
root, the others, the new roots of the common parts, and a number. -/
def shareBase (b : Scalar) (e : Rat) : List (Scalar × Rat) → Scalar →
    Scalar × List (Scalar × Rat) × List (Scalar × Rat) × Scalar
  | [], number => (b, [], [], number)
  | (b', e') :: rest, number =>
    let g := commonPart b b'
    if b.isOne || g = 1 then
      let (left, others, grown, number) := shareBase b e rest number
      (left, (b', e') :: others, grown, number)
    else
      let (whole, part) := splitExponent (.exact g) (e + e')
      let shrink := fun c => Scalar.exact g⁻¹ * c
      let (left, others, grown, number) := shareBase (shrink b) e rest (number * whole)
      (left, (shrink b', e') :: others, if part = 0 then grown else (.exact g, part) :: grown, number)

/-- Roots multiplied out: common parts of their bases are joined, each root is evaluated, and the results
are joined by exponent. -/
def joinRoots (ops : Operations) : Nat → List (Scalar × Rat) → Scalar → List (Rat × Scalar) →
    Scalar × List (Rat × Scalar)
  | 0, _, number, joined => (number, joined)
  | _ + 1, [], number, joined => (number, joined)
  | fuel + 1, (b, e) :: rest, number, joined =>
    if b.isOne then joinRoots ops fuel rest number joined
    else
      let (left, others, grown, number) := shareBase b e rest number
      let value := if left.isOne then 1 else ops.pow (num left) (ofRat e)
      let (number, joined) := value.multiplicands.foldl (fun (number, joined) f => match f with
        | num c => (number * c, joined)
        | pow (num c) (num (.exact q)) => (number, gatherDegree joined q c)
        | _ => (number, joined)) (number, joined)
      joinRoots ops fuel (others ++ grown) number joined

def rootParts (ops : Operations) (roots : List (Scalar × Rat)) (number : Scalar) :
    Scalar × List (Rat × Scalar) :=
  let byDegree := roots.foldl (fun acc (b, e) => gatherDegree acc e b) []
  let (number, plain) := byDegree.foldl (fun (number, plain) (e, b) =>
    let (whole, part) := splitExponent b e
    (if whole.isOne then number else number * whole, if part = 0 then plain else plain ++ [(b, part)]))
    (number, ([] : List (Scalar × Rat)))
  joinRoots ops (256 + 16 * plain.length) plain number []

/-- What a power of minus one comes to beside joined roots: a sign, the roots, which a positive base of
the same exponent joins, and a further factor. -/
def turnParts (turn : Rat) (joined : List (Rat × Scalar)) : Bool × List (Rat × Scalar) × List Coeff :=
  let part := turn - turn.floor
  let odd := turn.floor % 2 ≠ 0
  if part = 0 then (odd, joined, [])
  else if part = 1 / 2 then (odd, joined, [const .imaginary])
  else
    match joined.findIdx? fun (e, b) => e = part && b.isPositive with
    | some i => (odd, joined.modify i fun (e, b) => (e, -b), [])
    | none => (odd, joined, [pow (ofInt (-1)) (ofRat part)])

/-! ### Products -/

def evaluatePowers (ops : Operations) (powers : List (Coeff × Coeff)) :
    List Coeff × List (Coeff × Coeff) × Bool :=
  powers.foldr (fun (b, e) (values, parts, changed) =>
    match e with
    | num (.exact 1) => (b :: values, (b, e) :: parts, changed)
    | e =>
      if e.facts.zero == some true then (values, parts, changed)
      else
        let p := ops.pow b e
        if p.isPow && !b.isPow then
          let (b', e') := p.baseExponent
          (p :: values, (b', e') :: parts, changed || !same b b')
        else (p :: values, (b, e) :: parts, changed)) ([], [], false)

def repeats : List (Coeff × Coeff) → Bool
  | [] => false
  | (b, _) :: rest => rest.any (fun (b', _) => same b b') || repeats rest

def cancelsInfinity (powers : List (Coeff × Coeff)) : Bool :=
  powers.any fun (b, e) => match b, e with
    | sum c _, num d | prod c _, num d => d.isZero && !c.isFinite && c != .undefined
    | _, _ => false

def evaluateAll (ops : Operations) (powers : List (Coeff × Coeff)) : Option (List Coeff) :=
  if cancelsInfinity powers then none
  else
    let (values, parts, changed) := evaluatePowers ops powers
    if changed && repeats parts then
      let again := gather ops parts
      if cancelsInfinity again then none else some (evaluatePowers ops again).1
    else some values

def joinNumeric (ops : Operations) (powers : List (Coeff × Coeff)) : List Coeff :=
  let grouped := powers.foldl (fun acc (b, e) => insert acc b e) ([] : List (Coeff × Coeff))
  grouped.filterMap fun (b, e) => if e.isZero then none else some (ops.pow b e)
where
  insert (groups : List (Coeff × Coeff)) (b e : Coeff) : List (Coeff × Coeff) :=
    match groups with
    | [] => [(b, e)]
    | (b', e') :: rest => if same e e' then (ops.times b' b, e') :: rest else (b', e') :: insert rest b e

/-- A number times factors, where an infinity takes in what does not change it. -/
def settleNumber (number : Scalar) (factors : List Coeff) : Coeff :=
  let finish := fun (number : Scalar) (factors : List Coeff) =>
    let number := (factors.filterMap toScalar?).foldl (· * ·) number
    if number = .undefined then num .undefined
    else ofFactors number (arrange (factors.filter (·.toScalar?.isNone)))
  match number with
  | .undefined => num .undefined
  | .infinity negative =>
    let known := factors.map fun f => (f, f.facts)
    let flips := known.filter (·.2.negative == some true)
    let kept := known.filter fun (_, k) => !(k.positive == some true || k.negative == some true)
    finish (.infinity (negative != (flips.length % 2 == 1))) (kept.map (·.1))
  | .unsigned => finish .unsigned (factors.filter fun f =>
      let known := f.facts
      !(known.zero == some false && known.real.isSome))
  | number =>
    if number.isZero then
      if factors.any (·.facts.finite == some false) then num .undefined else num number
    else finish number factors

def multiply (ops : Operations) (args : List Coeff) : Coeff :=
  let size := args.foldl (fun n e => n + e.multiplicands.length + 1) 16
  let sorted := sortFactors ops (takeUp ops (4 * size) args [])
  match evaluateAll ops (gather ops sorted.powers) with
  | none => num .undefined
  | some powers =>
    let numeric := joinNumeric ops (gather ops sorted.numeric)
    let (number, joined) := rootParts ops sorted.roots sorted.number
    let (odd, joined, turned) := turnParts sorted.turn joined
    let number := if odd then -number else number
    let roots := joined.map fun (e, b) => ops.pow (num b) (ofRat e)
    settleNumber number (powers ++ numeric ++ turned ++ roots)

/-- The product of expressions. Factors equal to one are dropped, and zero times a sum is zero times each
of its terms. -/
def productStep (ops : Operations) (args : List Coeff) : Coeff :=
  match args.filter (!·.isOne) with
  | [] => 1
  | [e] => e
  | [num (.exact 0), sum c ts] | [sum c ts, num (.exact 0)] =>
    addAll ((sum c ts).summands.map fun t => ops.times (ofInt 0) t)
  | args => multiply ops args

/-! ### Powers -/

/-- The base without its sign, for whole exponents: a number or a numeric product that is negative. -/
def unsignedBase? (ops : Operations) (b : Coeff) : Option Coeff :=
  match b with
  | num c => if c.isNegative then some (num (-c)) else none
  | prod c fs =>
    if c.isNegative && c.isFinite && (prod c fs).isNumeric then some (ops.opposite (prod c fs)) else none
  | _ => none

def isHalf : Coeff → Bool
  | num (.exact q) => q.den == 2
  | _ => false

/-- The sign that comes out when the exponent `x` is multiplied into the power `b ^ e`, for numbers: the
angle of the power may leave the principal range. -/
def branchSign? (b e : Coeff) (x : Rat) : Option Scalar := do
  let z ← b.value?
  let w ← e.value?
  if z.isZero then none
  else
    let angle := (Point.mul w z.log).im
    let turns := (1 / 2 - angle / (2 * Elementary.pi)).floor
    let half := 2 * x * turns
    if half.den = 1 then some (if half.num % 2 = 0 then 1 else .ofInt (-1)) else none

def isRightHalf (b : Coeff) : Bool :=
  match b.value? with
  | some z => decide (0 ≤ z.re) || Point.tiny z.re
  | none => false

def powerOfPower (ops : Operations) (b e x : Coeff) : Option Coeff :=
  let joined := fun (sign : Scalar) (b : Coeff) => ops.times (num sign) (ops.pow b (ops.times e x))
  if x.toInt?.isSome then some (joined 1 b)
  else
    match e.facts.real with
    | none => none
    | some false => match x with
      | num (.exact q) => (branchSign? b e q).map (joined · b)
      | _ => none
    | some true =>
      let known := b.facts
      let minusOne := e.toInt? == some (-1)
      if minusOne && isHalf x && known.negative == some true then
        some (ops.times (ops.pow (ofInt (-1)) x) (ops.pow (ops.opposite b) (ops.mul [e, x])))
      else if minusOne && isHalf x && known.negative == some false then
        some (ops.pow b (ops.opposite x))
      else
        let even := match e.toInt? with
          | some n => n % 2 == 0
          | none => false
        let b := if even && known.real == some true && known.negative == some true then ops.opposite b else b
        let known := b.facts
        let size := (e.value?.map fun z => magnitude z.re).getD 2
        if size < 1 || e.isOne || known.isNonnegative || (isRightHalf b && decide (size < 2)) then
          some (joined 1 b)
        else
          match x with
          | num (.exact q) => if isHalf x then (branchSign? b e q).map (joined · b) else none
          | _ => none

/-- Negative factors shared out: the signs of all of them go to the factors that are raised together, and
their sizes to those at least zero. A single one joins the others, or stands for itself. -/
def shareSigns (ops : Operations) (nonnegative negative other : List Coeff) : List Coeff × List Coeff :=
  match negative with
  | [] => (nonnegative, other)
  | [n] =>
    if other.isEmpty then (nonnegative, [n])
    else
      match n with
      | num c => if c == Scalar.ofInt (-1) then (nonnegative, other ++ [n])
        else (nonnegative ++ [num (-c)], other ++ [ofInt (-1)])
      | n => (nonnegative, other ++ [n])
  | n :: rest =>
    let (o, negative) := match n with
      | num c => if other.isEmpty then (num c, rest) else (1, n :: rest)
      | _ => (1, n :: rest)
    let o := if negative.length % 2 = 1 then ops.opposite o else o
    (nonnegative ++ negative.map ops.opposite, if o.isOne then other else other ++ [o])

def sortSigns (ops : Operations) (args : List Coeff) : List Coeff × List Coeff :=
  shareSigns ops (args.filter fun a => a.facts.isNonnegative)
    (args.filter fun a => let k := a.facts; k.real == some true && !k.isNonnegative)
    (args.filter fun a => a.facts.real != some true)

/-- The product of the powers of factors: those at least zero are raised one by one, and the others
together. -/
def splitBase (ops : Operations) (args : List Coeff) (e : Coeff) : Coeff :=
  let (nonnegative, other) := sortSigns ops args
  let isRoot := fun (f : Coeff) => match e, f with
    | num (.exact _), pow b (num (.exact _)) => b.isNumeric && f.isPow
    | _, _ => false
  let roots := ops.mul ((nonnegative.filter isRoot).map fun f => ops.pow f e)
  let rest := ops.mul ((nonnegative.filter (!isRoot ·)).map fun f => pow f e)
  let front := ops.times roots rest
  if other.isEmpty then front else ops.times front (pow (ops.mul other) e)

def ofComplex (re im : Rat) : Coeff :=
  add (ofRat re) (if im = 0 then 0 else if im = 1 then const .imaginary else prod (.exact im) [const .imaginary])

def besideNumber (q : Rat) (e : Coeff) : Coeff := if q = 1 then e else prod (.exact q) [e]

def rationalRoot? (q : Rat) : Option Rat := do
  let n ← exactRoot? 2 q.num.natAbs
  let d ← exactRoot? 2 q.den
  return (n : Rat) / d

def powerOfProduct (ops : Operations) (c : Scalar) (fs : List Coeff) (x : Coeff) : Option Coeff :=
  let args := (prod c fs).multiplicands
  if x.toInt?.isSome then some (ops.mul (args.map fun f => pow f x))
  else
    match x, c, fs with
    | num (.exact q), .exact r, [const .imaginary] =>
      match if q.den = 2 then rationalRoot? (magnitude r / 2) else none with
      | some root =>
        some (besideNumber (powInt root q.num) (ops.pow (ofComplex 1 (if r < 0 then -1 else 1)) (ofInt q.num)))
      | none => some (splitBase ops args x)
    | num (.exact _), _, _ | num (.approx _), _, _ => some (splitBase ops args x)
    | _, _, _ => none

def complexWhole (re im : Rat) : Nat → Rat × Rat
  | 0 => (1, 0)
  | n + 1 =>
    let (a, b) := complexWhole re im n
    (a * re - b * im, a * im + b * re)

/-- A sum to a power, for infinities and for complex numbers whose root or reciprocal is known. -/
def powerOfSum (ops : Operations) (c : Scalar) (ts : List Coeff) (x : Coeff) : Option Coeff :=
  let infinite := fun (e : Coeff) => e.splitNumber.1.isFinite == false
  if ts.length + (if c == 0 then 0 else 1) = 2 && (sum c ts).summands.any infinite then
    match complexParts? (sum c ts) with
    | some _ =>
      let known := x.facts
      if known.negative == some true then some 0
      else if known.positive == some true then some (num .unsigned)
      else none
    | none => none
  else
    match x, complexParts? (sum c ts) with
    | num (.exact q), some (.exact r, .exact i) =>
      if q.den = 2 then
        (rationalRoot? (r * r + i * i)).map fun d =>
          let root := ops.pow (ops.pow (ofRat ((d - r) / 2)) (ofRat (1 / 2))) (ofInt q.num)
          let re := (d + r) / magnitude i
          let im := if i < 0 then -1 else 1
          let (a, b) := complexWhole re im q.num.natAbs
          let power := ofComplex a b
          ops.times root (if q < 0 then ops.pow power (ofInt (-1)) else power)
      else if q = -1 then
        some (besideNumber (1 / (r * r + i * i)) (ofComplex r (-i)))
      else none
    | num (.exact q), some (r, i) =>
      if q = -1 then
        some (prod ((r * r + i * i).power (-1)) [add (num r) (prod (-i) [const .imaginary])])
      else none
    | _, _ => none

def resolvePower (ops : Operations) (b e : Coeff) : Option Coeff :=
  match b with
  | num c => numberPower ops c e
  | const .imaginary => imaginaryPower e
  | const .euler => expPower ops e
  | const .pi => none
  | pow b' e' =>
    let (b', e') := baseExponent (pow b' e')
    powerOfPower ops b' e' e
  | prod c fs => powerOfProduct ops c fs e
  | sum c ts => powerOfSum ops c ts e
  | sym _ | app .. => none

def isInfiniteNumber : Coeff → Bool
  | num (.infinity _) | num .unsigned => true
  | _ => false

def limitPower (b : Coeff) : Option Coeff :=
  match b.compareWith? 1, b.compareWith? (-1) with
  | some .gt, _ => some (num (.infinity false))
  | some .lt, some .gt => some 0
  | _, some .lt => some (num (if isInfiniteNumber b then .undefined else .unsigned))
  | _, _ => none

def powerUnsigned (ops : Operations) (b e : Coeff) : Coeff :=
  match b, e with
  | num .undefined, _ | _, num .undefined => num .undefined
  | num (.exact 1), e => if isInfiniteNumber e then num .undefined else 1
  | b, e => (resolvePower ops b e).getD (pow b e)

def powerStep (ops : Operations) (b e : Coeff) : Coeff :=
  match e with
  | num .unsigned => num .undefined
  | num (.infinity false) => (limitPower b).getD (powerUnsigned ops b e)
  | num (.exact q) =>
    if q = 0 then 1
    else if q = 1 then b
    else if q.den ≠ 1 then powerUnsigned ops b e
    else
      match unsignedBase? ops b with
      | some size => if q.num % 2 = 0 then powerUnsigned ops size e else ops.opposite (ops.pow size e)
      | none => powerUnsigned ops b e
  | e => powerUnsigned ops b e

/-! ### To a bounded depth -/

def operations : Nat → Operations
  | 0 => ⟨prod 1, pow⟩
  | depth + 1 => ⟨productStep (operations depth), powerStep (operations depth)⟩

/-- How deep products and powers resolve each other. -/
def depthLimit : Nat := 40

/-- The product of factors in canonical form. -/
def mulAll (args : List Coeff) : Coeff := (operations depthLimit).mul args

/-- The power of a base in canonical form. -/
def raise (b e : Coeff) : Coeff := (operations depthLimit).pow b e

def mul (a b : Coeff) : Coeff :=
  match a, b with
  | num c, num d => num (c * d)
  | a, b => mulAll [a, b]

def inv (a : Coeff) : Coeff := raise a (ofInt (-1))

def neg : Coeff → Coeff
  | num c => num (-c)
  | e => mulAll [ofInt (-1), e]

end Bladewright.Coeff
