import Bladewright.Coeff.Value

/-!
Sums. Numbers are added up, terms that differ only in their number are merged, terms that vanish are dropped, and the
rest is arranged canonically.
-/
namespace Bladewright.Coeff

def openSums (args : List Coeff) : List Coeff :=
  args.filter (!·.isSum) ++ (args.filter (·.isSum)).flatMap summands

def mergeTerms : List (Scalar × Coeff) → List (Scalar × Coeff)
  | [] => []
  | (c, e) :: rest => go c e rest
where
  go (c : Scalar) (e : Coeff) : List (Scalar × Coeff) → List (Scalar × Coeff)
  | [] => [(c, e)]
  | (d, f) :: rest => if same e f then go (c + d) e rest else (c, e) :: go d f rest

def sortTerms (terms : List (Scalar × Coeff)) : List (Scalar × Coeff) :=
  sortBy (fun a b => cmp a.2 b.2 != .gt) terms

/-- Whether an infinite number takes in a term that stands beside it. -/
def absorbs (c : Scalar) (term : Coeff) : Bool :=
  let known := term.facts
  let plain := known.finite == some true && known.real == some true
  match c with
  | .infinity false => plain || known.isNonnegative
  | .infinity true => plain || known.isNonpositive
  | .unsigned => known.finite == some true && known.real.isSome
  | _ => false

/-- A sum of a number and arranged terms; a single part stands for itself. -/
def ofTerms (c : Scalar) (terms : List Coeff) : Coeff :=
  match terms with
  | [] => num c
  | [t] => if c == 0 then t else sum c [t]
  | ts => sum c ts

def numberOf (args : List Coeff) : Scalar :=
  (args.filterMap toScalar?).foldl (· + ·) 0

def collect (args : List Coeff) : Coeff :=
  let number := numberOf args
  let terms := (args.filter (·.toScalar?.isNone)).map splitNumber
  let merged := mergeTerms (sortTerms terms)
  if number = .undefined || merged.any (·.1 == .undefined) then num .undefined
  else
    let kept := (merged.filter (!·.1.isZero)).map fun (c, e) => withNumber c e
    let kept := if number.isFinite then kept else kept.filter (!absorbs number ·)
    ofTerms number (arrange kept)

/-- The sum of expressions. A zero is dropped, and a single summand stays as it is. -/
def addAll (args : List Coeff) : Coeff :=
  match args.filter (fun e => match e with
    | num c => c != 0
    | _ => true) with
  | [] => 0
  | [e] => e
  | args => collect (openSums args)

def add (a b : Coeff) : Coeff :=
  match a, b with
  | num c, num d => num (c + d)
  | a, b => addAll [a, b]

def distribute (c : Scalar) (d : Scalar) (terms : List Coeff) : Coeff :=
  addAll (num (c * d) :: terms.map (scaleTerm c))

end Bladewright.Coeff
