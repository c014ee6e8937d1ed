import Bladewright.Coeff.Scalar

/-!
Coefficients: symbolic expressions over named inputs and their components. A product is a number and its other
factors, and a sum is a number and its other terms, so that no number hides among them.
-/
namespace Bladewright

inductive Constant where
  | pi
  | euler
  | imaginary
deriving DecidableEq, Repr, Inhabited

/-- Symbolic coefficients. A product and a sum have their number in front. -/
inductive Coeff where
  | num (value : Scalar)
  | sym (name : String)
  | const (value : Constant)
  | app (function : String) (args : List Coeff)
  | pow (base exponent : Coeff)
  | prod (number : Scalar) (factors : List Coeff)
  | sum (number : Scalar) (terms : List Coeff)
deriving Repr, Inhabited

namespace Coeff

instance : OfNat Coeff n := ⟨num (.exact n)⟩

def ofInt (n : Int) : Coeff := num (.ofInt n)

def toScalar? : Coeff → Option Scalar
  | num c => some c
  | _ => none

def toInt? : Coeff → Option Int
  | num c => c.toInt?
  | _ => none

def isZero : Coeff → Bool
  | num c => c == 0
  | _ => false

def isOne : Coeff → Bool
  | num c => c.isOne
  | _ => false

/-! ### The canonical order of factors and terms -/

/-- Names of functions with a place of their own in the canonical order, from the first on. -/
def placedNames : List String :=
  ["Derivative", "Integral", "Abs", "Sign", "Sqrt", "Floor", "Ceiling", "Re", "Im", "Arg", "Conjugate", "Exp",
    "Log", "Sin", "Cos", "Tan", "Cot", "ASin", "ACos", "ATan", "ACot", "Sinh", "Cosh", "Tanh", "Coth", "ASinh",
    "ACosh", "ATanh", "ACoth", "RisingFactorial", "FallingFactorial", "factorial", "binomial", "Gamma",
    "LowerGamma", "UpperGamma", "PolyGamma", "Erf", "Chebyshev", "Chebyshev2", "Function", "WildFunction",
    "Lambda", "Order", "Equality", "Unequality", "StrictGreaterThan", "StrictLessThan", "GreaterThan", "LessThan"]

/-- The place of a name in the canonical order: names without a place come last, by themselves. -/
def rankName (name : String) : Nat × String :=
  match placedNames.findIdx? (· == name) with
  | some i => (18 + i, "")
  | none => (100, name)

/-- The canonical order of names. -/
def cmpName (f g : String) : Ordering :=
  if f = g then .eq else (compare (rankName f).1 (rankName g).1).then (compare f g)

def rank : Coeff → Nat × String
  | num .unsigned => (100, "ComplexInfinity")
  | num c => (c.rank, "")
  | const .euler => (10, "")
  | const .pi => (11, "")
  | const .imaginary => (12, "")
  | sym _ => (13, "")
  | pow (const .euler) _ => (100, "exp")
  | pow .. => (15, "")
  | prod .. => (16, "")
  | sum .. => (17, "")
  | app name _ => rankName name

def cmpRank (a b : Coeff) : Ordering :=
  (compare a.rank.1 b.rank.1).then (compare a.rank.2 b.rank.2)

mutual

/-- The canonical order: by kind, then by the number of parts, then part by part. -/
def cmp : Coeff → Coeff → Ordering
  | num a, num b => a.cmp b
  | sym a, sym b => compare a b
  | app f xs, app g ys =>
    (cmpName f g).then ((compare xs.length ys.length).then (cmpList xs ys))
  | pow b e, pow b' e' => (cmpRank (pow b e) (pow b' e')).then ((cmp b b').then (cmp e e'))
  | prod c fs, prod d gs =>
    let left := if c.isOne then fs.length else fs.length + 1
    let right := if d.isOne then gs.length else gs.length + 1
    (compare left right).then <|
      if c.isOne != d.isOne then (if c.isOne then .gt else .lt)
      else (c.cmp d).then (cmpList fs gs)
  | sum c ts, sum d us =>
    let left := if c == 0 then ts.length else ts.length + 1
    let right := if d == 0 then us.length else us.length + 1
    (compare left right).then <|
      if (c == 0) != (d == 0) then (if c == 0 then .gt else .lt)
      else (c.cmp d).then (cmpList ts us)
  | a, b => cmpRank a b

def cmpList : List Coeff → List Coeff → Ordering
  | a :: as, b :: bs => (cmp a b).then (cmpList as bs)
  | [], [] => .eq
  | [], _ :: _ => .lt
  | _ :: _, [] => .gt

end

/-- Whether two coefficients have the same form. -/
def same (a b : Coeff) : Bool := cmp a b == .eq

instance : BEq Coeff := ⟨same⟩

def mergeFrom {α : Type} (le : α → α → Bool) (x : α) (xs : List α) (rest : List α → List α) : List α → List α
  | [] => x :: xs
  | y :: ys => if le x y then x :: rest (y :: ys) else y :: mergeFrom le x xs rest ys

/-- Merges two sorted lists; of elements that come before each other, those of the first list stand first. -/
def mergeBy {α : Type} (le : α → α → Bool) : List α → List α → List α
  | [], ys => ys
  | x :: xs, ys => mergeFrom le x xs (mergeBy le xs) ys

def sortWithin {α : Type} (le : α → α → Bool) : Nat → List α → List α
  | 0, es => es
  | left + 1, es =>
    if es.length ≤ 1 then es
    else
      let half := (es.length + 1) / 2
      mergeBy le (sortWithin le left (es.take half)) (sortWithin le left (es.drop half))

/-- Sorts a list; elements that come before each other keep their order. -/
def sortBy {α : Type} (le : α → α → Bool) (es : List α) : List α := sortWithin le es.length es

/-- Sorts factors or terms into the canonical order. -/
def arrange (es : List Coeff) : List Coeff := sortBy (fun a b => cmp a b != .gt) es

/-! ### Parts -/

/-- The number in front of a term, and the rest. -/
def splitNumber : Coeff → Scalar × Coeff
  | num c => (c, 1)
  | prod c fs =>
    if c = .unsigned then (1, prod c fs)
    else
      match fs with
      | [f] => (c, f)
      | fs => (c, prod 1 fs)
  | e => (1, e)

/-- A number other than zero times an expression without one. -/
def withNumber (c : Scalar) (e : Coeff) : Coeff :=
  if c.isOne then e
  else
    match e with
    | num d => num (c * d)
    | prod d fs => if d.isOne then prod c fs else prod c [prod d fs]
    | e => prod c [e]

def scaleTerm (c : Scalar) : Coeff → Coeff
  | num d => num (c * d)
  | prod d fs =>
    let c := c * d
    if c.isZero then num c
    else
      match c.isOne, fs with
      | true, [f] => f
      | _, fs => prod c fs
  | e => withNumber c e

def oppositeExponent : Coeff → Coeff
  | sum c ts => sum (-c) (arrange (ts.map (scaleTerm (.ofInt (-1)))))
  | e => scaleTerm (.ofInt (-1)) e

/-- Whether a base is one divided by an integer above one, of which its powers are taken. -/
def isUnitFraction : Coeff → Bool
  | num (.exact q) => q.num == 1 && q.den != 1
  | _ => false

def baseExponent : Coeff → Coeff × Coeff
  | pow (num (.exact q)) e =>
    if isUnitFraction (num (.exact q)) then (num (.exact q⁻¹), oppositeExponent e)
    else (num (.exact q), e)
  | pow b e => (b, e)
  | e => (e, 1)

/-- The terms of a sum, its number included. -/
def summands : Coeff → List Coeff
  | sum c ts => if c == 0 then ts else num c :: ts
  | e => [e]

/-- The factors of a product, its number included. -/
def multiplicands : Coeff → List Coeff
  | prod c fs => if c.isOne then fs else num c :: fs
  | e => [e]

def isSum : Coeff → Bool
  | sum .. => true
  | _ => false

def isProd : Coeff → Bool
  | prod .. => true
  | _ => false

/-- Whether an expression is a power of anything but the base of the natural logarithm, whose powers are
a function. -/
def isPow : Coeff → Bool
  | pow (const .euler) _ => false
  | pow .. => true
  | _ => false

def isNumeric : Coeff → Bool
  | num _ | const _ => true
  | pow b e => b.isNumeric && e.isNumeric
  | prod _ fs => fs.attach.all fun ⟨f, _⟩ => f.isNumeric
  | sum _ ts => ts.attach.all fun ⟨t, _⟩ => t.isNumeric
  | sym _ | app .. => false

def symbols : Coeff → List String
  | num _ | const _ => []
  | sym s => [s]
  | app _ args => args.attach.flatMap fun ⟨a, _⟩ => a.symbols
  | pow b e => b.symbols ++ e.symbols
  | prod _ fs => fs.attach.flatMap fun ⟨f, _⟩ => f.symbols
  | sum _ ts => ts.attach.flatMap fun ⟨t, _⟩ => t.symbols

end Coeff

end Bladewright
