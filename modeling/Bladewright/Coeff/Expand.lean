import Bladewright.Coeff.Product

/-!
Expansion: products of sums and whole powers of sums are multiplied out, and a denominator with several factors is
multiplied out as a whole. The rules are applied everywhere, innermost first, until nothing changes.
-/
namespace Bladewright.Coeff

/-! ### Numerator and denominator -/

/-- The common denominator of the numbers in a base, when it has no other denominators. -/
def numberDenominator : Coeff → Nat
  | num (.exact q) => q.den
  | prod (.exact q) fs => if fs.any hasDenominator then 1 else q.den
  | sum (.exact q) ts => ts.foldl (fun d t => match t with
    | prod (.exact r) fs => if fs.any hasDenominator then d else Nat.lcm d r.den
    | _ => d) q.den
  | _ => 1
where
  hasDenominator : Coeff → Bool
    | pow _ (num c) => c.isNegative
    | pow _ (prod c _) => c.isNegative
    | _ => false

/-- A power as numerator and denominator, where the sign of its exponent is not known: the exponent is made
positive in form, and denominators of numbers in the base come out of it. -/
def splitPower (b e : Coeff) : List Coeff × List Coeff :=
  let negative := match e with
    | prod c _ => c.isNegative && c.isFinite
    | _ => false
  let d := numberDenominator b
  let n := if d = 1 then b else mul (ofInt d) b
  let e := if negative then neg e else e
  let power := fun (b : Coeff) => let p := raise b e; if p.isOne then [] else [p]
  if negative then (power (ofInt d), power n) else (power n, power (ofInt d))

/-- What a factor contributes to the numerator and to the denominator. -/
def fractionParts : Coeff → List Coeff × List Coeff
  | num (.exact q) =>
    if q.den = 1 then ([num (.exact q)], [])
    else (if q.num = 1 then [] else [ofInt q.num], [ofInt q.den])
  | pow b e =>
    let (b', e') := baseExponent (pow b e)
    let known := e'.facts
    if known.negative == some true && known.finite == some true then
      ([], [if e'.toInt? == some (-1) then b' else raise b' (neg e')])
    else if known.positive == some true && known.finite == some true then ([pow b e], [])
    else
      match e' with
      | prod .. => splitPower b' e'
      | _ => ([pow b e], [])
  | e => ([e], [])

def fraction (e : Coeff) : Coeff × Coeff :=
  let parts := e.multiplicands.map fractionParts
  (mulAll (parts.flatMap (·.1)), mulAll (parts.flatMap (·.2)))

/-! ### Products -/

def expandSums : Nat → List Coeff → List Coeff
  | 0, _ => []
  | fuel + 1, sums =>
    match sums with
    | [] => [1]
    | [s] => s.summands
    | sums =>
      let half := sums.length / 2
      let left := expandSums fuel (sums.take half)
      let right := expandSums fuel (sums.drop half)
      (addAll (left.flatMap fun a => right.map fun b => mulAll [a, b])).summands

/-- Multiplies the sums among the factors out. -/
def multiplyOut (e : Coeff) : Coeff :=
  match e with
  | prod c fs =>
    let sums := fs.filter (·.isSum)
    if sums.isEmpty then e
    else
      let plain := mulAll (num c :: fs.filter (!·.isSum))
      addAll ((expandSums (sums.length + 1) sums).map fun t => mulAll [plain, t])
  | e => e

/-- Whether a factor changes when a product is split into numerator and denominator and put together
again: it is no generator to a whole power. -/
def holdsSum : Coeff → Bool
  | sum .. | prod .. => true
  | pow (sum ..) _ | pow (prod ..) _ => true
  | pow _ e => e.toInt?.isNone
  | _ => false

/-- A product multiplied out over a common denominator; a denominator that is a product is multiplied
out first, and so is the numerator then. -/
def expandProduct (e : Coeff) : Coeff :=
  match e with
  | prod _ fs =>
    if fs.any holdsSum then
      let (n, d) := e.fraction
      let (n, d) := if d.isProd then (expandFraction n, expandFraction d) else (n, d)
      multiplyOut (if n.isOne then d.inv else mul n d.inv)
    else e
  | e => e
where
  expandFraction (e : Coeff) : Coeff :=
    match e with
    | prod .. =>
      let (n, d) := e.fraction
      multiplyOut (if d.isOne then n else mul n d.inv)
    | e => e

/-! ### Powers -/

def binomials (n : Nat) : List (List Nat × Nat) :=
  (List.range (n / 2 + 1)).flatMap fun k =>
    let c := (List.range k).foldl (fun c i => c * (n - i) / (i + 1)) 1
    if 2 * k = n then [([k, k], c)] else [([k, n - k], c), ([n - k, k], c)]

/-- The exponents of the terms of an `n`-th power of `m` summands, with their numbers; the exponent of the
last summand goes up most slowly. -/
def multinomials : Nat → Nat → List (List Nat × Nat)
  | 0, n => if n = 0 then [([], 1)] else []
  | m + 1, n =>
    (List.range (n + 1)).flatMap fun k =>
      let c := (List.range k).foldl (fun c i => c * (n - i) / (i + 1)) 1
      (multinomials m (n - k)).map fun (ks, d) => (ks ++ [k], c * d)

def powerTerms (m n : Nat) : List (List Nat × Nat) := if m = 2 then binomials n else multinomials m n

def expandPower (summands : List Coeff) (n : Nat) : Coeff :=
  addAll ((powerTerms summands.length n).map fun (ks, c) =>
    mulAll (num (.exact c) :: (summands.zip ks).filterMap fun (s, k) =>
      if k = 0 then none else some (raise s (num (.exact k)))))

def expandSumPower (s : Coeff) (q : Rat) : Coeff :=
  let n := q.floor
  let whole := if n = 1 then s else expandPower s.summands n.toNat
  if q.den = 1 then whole
  else
    let radical := raise s (num (.exact (q - n)))
    addAll (whole.summands.map fun t => mul t radical)

/-- Whether a base to a sum of exponents is the product of its powers: it is not zero, or the exponents
all have one sign. -/
def splitsExponent (b e : Coeff) : Bool :=
  b.facts.zero == some false
    || e.summands.all (fun t => let k := t.facts; k.isNonnegative && k.finite == some true)
    || e.summands.all (fun t => let k := t.facts; k.isNonpositive && k.finite == some true)

def expandMultinomial (e : Coeff) : Coeff :=
  match e with
  | pow (sum c ts) (num (.exact q)) =>
    if 1 < q then expandSumPower (sum c ts) q
    else if q < -1 then inv (expandSumPower (sum c ts) (-q))
    else e
  | pow (num b) (sum c ts) =>
    if splitsExponent (num b) (sum c ts) then
      mulAll ((if c == 0 then [] else [raise (num b) (num c)]) ++ [raise (num b) (addAll ts)])
    else e
  | e => e

def expandBase (e : Coeff) : Coeff :=
  match e with
  | pow (prod c fs) x => splitBase (operations depthLimit) (prod c fs).multiplicands x
  | e => e

def expandExponent (e : Coeff) : Coeff :=
  match e with
  | pow (const .euler) (sum c ts) => mulAll ((sum c ts).summands.map (raise (const .euler)))
  | pow b (sum c ts) =>
    if splitsExponent b (sum c ts) then mulAll ((sum c ts).summands.map (raise b)) else e
  | e => e

/-! ### Everywhere -/

mutual

/-- Applies a step to all parts, innermost first. -/
def everywhere (rule : Coeff → Coeff) : Coeff → Coeff
  | num c => rule (num c)
  | sym s => rule (sym s)
  | const c => rule (const c)
  | app f args => rule (app f (everywhereList rule args))
  | pow b e =>
    let b' := everywhere rule b
    let e' := everywhere rule e
    rule (if same b b' && same e e' then pow b e else raise b' e')
  | prod c fs =>
    let fs' := everywhereList rule fs
    rule (if cmpList fs fs' == .eq then prod c fs else mulAll (num c :: fs'))
  | sum c ts =>
    let ts' := everywhereList rule ts
    rule (if cmpList ts ts' == .eq then sum c ts else addAll (num c :: ts'))

def everywhereList (rule : Coeff → Coeff) : List Coeff → List Coeff
  | [] => []
  | e :: es => everywhere rule e :: everywhereList rule es

end

/-- One round of all rules, repeated at most `fuel` times until nothing changes. -/
def settle : Nat → Coeff → Coeff
  | 0, e => e
  | fuel + 1, e =>
    let next := everywhere expandProduct (everywhere expandMultinomial e)
    if same e next then e else settle fuel next

def roundLimit : Nat := 64

/-- Multiplies out products and powers of sums, until nothing changes. -/
def expand (e : Coeff) : Coeff :=
  match e with
  | num _ | sym _ | const _ => e
  | e =>
    let first := everywhere expandProduct (everywhere expandMultinomial e)
    settle roundLimit (everywhere expandExponent (everywhere expandBase first))

end Bladewright.Coeff
