import Bladewright.Coeff.NumberText
import Bladewright.Coeff.Value

/-!
The order in which terms and factors are written. Factors go by a key: the kind of the base, the base's own parts, the
exponent, and the number in front.
-/
namespace Bladewright.Coeff

/-- A sort key. Numbers come first, then symbols, compound expressions and applications. -/
inductive Key where
  | node (major minor : Nat) (kind : String) (label : List String) (args : List Key)
      (exponent : Option Key) (number : Scalar)
deriving Inhabited

namespace Key

mutual

def cmp : Key → Key → Ordering
  | node i j s l xs e c, node i' j' s' l' ys e' c' =>
    (compare i i').then <| (compare j j').then <| (compare s s').then <|
      (compare (l.length + xs.length) (l'.length + ys.length)).then <|
        (cmpLabels l l').then <| (cmpList xs ys).then <| (cmpOption e e').then (c.cmpValue c')

def cmpList : List Key → List Key → Ordering
  | a :: as, b :: bs => (cmp a b).then (cmpList as bs)
  | [], [] => .eq
  | [], _ :: _ => .lt
  | _ :: _, [] => .gt

def cmpOption : Option Key → Option Key → Ordering
  | some a, some b => cmp a b
  | none, none => .eq
  | none, some _ => .lt
  | some _, none => .gt

def cmpLabels : List String → List String → Ordering
  | a :: as, b :: bs => (compare a b).then (cmpLabels as bs)
  | [], [] => .eq
  | [], _ :: _ => .lt
  | _ :: _, [] => .gt

end

def number (c : Scalar) : Key := node 1 0 "Number" [] [] none c

def one : Option Key := some (number 1)

def scaled : Key → Scalar → Key
  | node i j s l xs e _, c => node i j s l xs e c

def raised : Key → Key → Key
  | node i j s l xs _ _, e => node i j s l xs (some e) 1

end Key

def sortKeys (keys : List Key) : List Key := keys.mergeSort fun a b => a.cmp b != .gt

/-- How a term is placed among the terms of a sum. -/
structure Placement where
  key : Key
  base : Key
  gens : List (Key × Int)
  value : Point
  positive : Bool
  constant : Bool
  negated : Bool
deriving Inhabited

def exponents (gens : List Key) (own : List (Key × Int)) : List Int :=
  gens.map fun g => ((own.find? fun (k, _) => k.cmp g == .eq).map (·.2)).getD 0

def dropRepeats : List Key → List Key
  | a :: b :: rest => if a.cmp b == .eq then dropRepeats (b :: rest) else a :: dropRepeats (b :: rest)
  | keys => keys

def cmpExponents : List Int → List Int → Ordering
  | a :: as, b :: bs => (compare b a).then (cmpExponents as bs)
  | [], [] => .eq
  | [], _ :: _ => .lt
  | _ :: _, [] => .gt

def cmpPoint (z w : Point) : Ordering :=
  let cmpRat := fun (p q : Rat) => if p < q then Ordering.lt else if q < p then .gt else .eq
  (compare (z.im != 0) (w.im != 0)).then ((cmpRat z.im w.im).then (cmpRat z.re w.re))

/-- Terms in the order in which they are written. A positive number goes before a single negated
factor; otherwise the exponents decide. -/
def sortPlaced {α : Type} (terms : List (Placement × α)) : List (Placement × α) :=
  let numbersFirst := terms.filter (·.1.constant) ++ terms.filter (!·.1.constant)
  match numbersFirst with
  | [(p, a), (q, b)] => if p.positive && q.negated then [(p, a), (q, b)] else general terms
  | _ => general terms
where
  general (terms : List (Placement × α)) : List (Placement × α) :=
    let gens := dropRepeats (sortKeys (terms.flatMap fun (p, _) => p.gens.map (·.1)))
    let vectors := terms.map fun (p, a) => (exponents gens p.gens, p, a)
    (vectors.mergeSort fun a b =>
      ((cmpExponents a.1 b.1).then (cmpPoint a.2.1.value b.2.1.value)) != .gt).map (·.2)

def sortValue (c : Scalar) : Rat :=
  match c with
  | .exact q | .approx q => q
  | .infinity true => -Numeral.powInt 10 400
  | _ => Numeral.powInt 10 400

/-- The key of a number that stands by itself; the infinity of no direction is a name. -/
def numberKey : Scalar → Key
  | .unsigned => .node 2 0 "ComplexInfinity" ["zoo"] [] Key.one 1
  | c => .number c

def placeNumber (c : Scalar) : Placement :=
  { key := numberKey c
    base := match c with
      | .unsigned => numberKey c
      | c => .node 1 0 "Number" [c.text true] [] Key.one 1
    gens := []
    value := .ofRat (sortValue c)
    positive := c.isPositive && c.isFinite
    constant := true
    negated := false }

def placeAtom (key : Key) : Placement :=
  { key, base := key, gens := [(key, 1)], value := .ofRat 1, positive := false, constant := false, negated := false }

def placeConstant (c : Constant) : Placement :=
  let known := fun (kind name : String) (value : Point) =>
    { placeAtom (.node 2 0 kind [name] [] Key.one 1) with gens := [], value }
  match c with
  | .pi => { known "Pi" "pi" (.ofRat Numeral.Elementary.pi) with constant := true, positive := true }
  | .euler => { known "Exp1" "E" (.ofRat Numeral.Elementary.e) with constant := true, positive := true }
  | .imaginary => known "ImaginaryUnit" "I" ⟨0, 1⟩

def functionPlace (name : String) : Nat :=
  let places := [("exp", 10), ("log", 11), ("sin", 20), ("cos", 21), ("tan", 22), ("cot", 23), ("sinh", 30),
    ("cosh", 31), ("tanh", 32), ("coth", 33), ("conjugate", 40), ("re", 41), ("im", 42), ("arg", 43)]
  (places.lookup name).getD 0

def expKey (argument : Key) : Key := .node 4 (functionPlace "exp") "exp" [] [argument] Key.one 1

/-- The generator and the exponent of a power, by the key that its base has with each exponent. A
fractional exponent counts in units of its denominator. -/
def powerGens (raised : Key → Key) (base : Key) (exponent : Coeff) (placed : Key) : List (Key × Int) :=
  match exponent with
  | num (.exact q) =>
    if q.den = 1 then [(base, q.num)] else [(raised (.number (.exact (1 / q.den))), q.num)]
  | num _ => [(raised placed, 1)]
  | prod (.exact q) _ =>
    if q = 1 then [(raised placed, 1)]
    else [(raised (placed.scaled (.exact (1 / q.den))), q.num)]
  | _ => [(raised placed, 1)]

def placePower (b e : Coeff) (pb pe : Placement) : Placement :=
  let value := if (pow b e).isNumeric then (pow b e).value? else none
  match b with
  | const .euler =>
    let atom := placeAtom (expKey pe.key)
    { atom with
      gens := if value.isSome then [] else powerGens expKey pb.key e pe.key
      value := value.getD (.ofRat 1) }
  | b =>
    let (own, ownExponent, exponentKey) := match b with
      | num (.exact q) => if isUnitFraction b then
          let up := oppositeExponent e
          (placeNumber (.exact q⁻¹), up, pe.key.scaled up.splitNumber.1)
        else (pb, e, pe.key)
      | _ => (pb, e, pe.key)
    { key := pb.base.raised pe.key
      base := .node 3 2 "Pow" [] [pb.key, pe.key] Key.one 1
      gens := if value.isSome then [] else powerGens own.base.raised own.key ownExponent exponentKey
      value := value.getD (.ofRat 1)
      positive := false, constant := false, negated := false }

mutual

def place : Coeff → Placement
  | num c => placeNumber c
  | sym s => placeAtom (.node 2 0 "Symbol" [s] [] Key.one 1)
  | const c => placeConstant c
  | app f args => placeAtom (.node 4 (functionPlace f) f [] ((placeList args).map (·.key)) Key.one 1)
  | pow b e => placePower b e (place b) (place e)
  | prod c fs =>
    let rest := placeList fs
    let placed := if c = .unsigned then placeNumber c :: rest else rest
    let front : Scalar := if c = .unsigned then 1 else c
    let key := match placed with
      | [p] => p.key.scaled front
      | ps => .node 3 0 "Mul" [] (sortKeys (ps.map (·.key))) Key.one front
    let all := if front.isOne then placed else placeNumber front :: placed
    { key
      base := .node 3 0 "Mul" [] (sortKeys (all.map (·.key))) Key.one 1
      gens := placed.flatMap (·.gens)
      value := rest.foldl (fun v p => if p.gens.isEmpty then v.mul p.value else v) (.ofRat (sortValue front))
      positive := false
      constant := false
      negated := c.isNegative && c.isFinite && rest.length == 1 }
  | sum c ts =>
    let placed := (if c == 0 then [] else [placeNumber c]) ++ placeList ts
    let ordered := sortPlaced (placed.map fun p => (p, ()))
    let atom := placeAtom (.node 3 1 "Add" [] (ordered.map (·.1.key)) Key.one 1)
    match if (sum c ts).isNumeric then (sum c ts).value? else none with
    | some value => { atom with gens := [], value }
    | none => atom

def placeList : List Coeff → List Placement
  | [] => []
  | e :: es => place e :: placeList es

end

def orderedTerms (e : Coeff) : List Coeff :=
  (sortPlaced (e.summands.map fun t => (place t, t))).map (·.2)

def orderedFactors (e : Coeff) : List Coeff :=
  let placed := e.multiplicands.map fun f => ((place f).key, f)
  (placed.mergeSort fun a b => a.1.cmp b.1 != .gt).map (·.2)

end Bladewright.Coeff
