import Bladewright.Algebra.Product
import Bladewright.Tree.Basic

/-!
Evaluation of expanded trees into terms over any coefficients. Host expressions become scalar coefficients, and the
components of a typed host input are read one by one, grades ascending and in the order of the blades.
-/
namespace Bladewright.Evaluation

/-- What evaluation needs of coefficients beside their arithmetic: those of literals, host inputs and
components of host inputs, which of them are zero, a form in which zero shows, and inverses. -/
structure Engine (α : Type) where
  number : Scalar → α
  input : String → α
  /-- A component of a host input; its only one if there is no index. -/
  component : String → Option Nat → α
  isZero : α → Bool
  normal : α → α
  inverse : α → α

/-- Where an operation needs an integer literal. -/
inductive Slot where
  | grade
  | exponent
deriving DecidableEq, Repr

/-- Why a tree has no value. -/
inductive Error (α : Type) where
  | missingBasis (factors : List Int) (index : Int) (signature : Signature)
  | negativeBasis
  | missingGrades (spec : GradeSpec) (grades : List Int) (signature : Signature)
  | notScalar (divisor : Terms α) (signature : Signature)
  | zeroDivisor
  | notInteger (slot : Slot) (tree : Tree)
  | wrongOperands (op : Op) (count : Nat)
  | unexpanded (tree : Tree)
  | unknownNode (tree : Tree)

variable {α : Type} [Add α] [Mul α] [Neg α] [OfNat α 0] [OfNat α 1]

/-- A product of basis vectors, which all have to exist. -/
def bladeTerms (s : Signature) (factors : List Int) (number : Scalar → α) :
    Except (Error α) (Terms α) :=
  match factors.find? fun i => (s.dimension : Int) ≤ i with
  | some i => throw (.missingBasis factors i s)
  | none =>
    if factors.any (· < 0) then throw .negativeBasis
    else
      let (blade, sign) := Blade.ofProduct s (factors.map Int.toNat)
      return if sign = 0 then .empty else .single blade (number (.ofInt sign))

def bladesOf (n : Nat) (grades : List Int) : List Nat :=
  grades.flatMap fun g => Blade.ofGrade n g.toNat

/-- The components of a host input; a single one has no index. -/
def components (engine : Engine α) (source : String) (count : Nat) : List α :=
  if count = 1 then [engine.component source none]
  else (List.range count).map fun i => engine.component source (some i)

/-- A typed host input: a component for each blade of its grades. -/
def inputTerms (engine : Engine α) (n : Nat) (source : String) (grades : List Int) : Terms α :=
  let blades := bladesOf n grades
  .ofList (blades.zip (components engine source blades.length))

/-- The parts of given grades, in that order. -/
def selectGrades (A : Terms α) (grades : List Int) : Terms α :=
  .ofList (grades.flatMap fun g => A.entries.filter fun e => (Blade.grade e.1 : Int) == g)

/-- The grades of a type, which all have to exist. -/
def checkedGrades (s : Signature) (spec : GradeSpec) : Except (Error α) (List Int) :=
  let grades := spec.resolve s.dimension
  match grades.filter fun g => !(0 ≤ g && g ≤ (s.dimension : Int)) with
  | [] => return grades
  | missing => throw (.missingGrades spec missing s)

/-- Divides by a scalar that is not zero in its normal form. -/
def divide (engine : Engine α) (s : Signature) (A divisor : Terms α) : Except (Error α) (Terms α) :=
  if divisor.entries.any fun e => e.1 != 0 && !engine.isZero e.2 then throw (.notScalar divisor s)
  else
    let denominator := engine.normal (divisor.coeff 0)
    if engine.isZero denominator then throw .zeroDivisor
    else return A.scale (engine.inverse denominator)

/-- The reverse, divided by the product with the reverse. -/
def inverse (engine : Engine α) (s : Signature) (A : Terms α) : Except (Error α) (Terms α) :=
  divide engine s A.reverse (A.geometricProduct s A.reverse)

def naturalPower (s : Signature) (A : Terms α) : Nat → Terms α
  | 0 => .single 0 1
  | k + 1 => (naturalPower s A k).geometricProduct s A

/-- A power; with a negative exponent, one of the inverse. -/
def integerPower (engine : Engine α) (s : Signature) (A : Terms α) :
    Int → Except (Error α) (Terms α)
  | .ofNat k => return naturalPower s A k
  | .negSucc k => return naturalPower s (← inverse engine s A) (k + 1)

def integerOf (slot : Slot) : Tree → Except (Error α) Int
  | tree@(.literal value) => match value.toInt? with
    | some k => return k
    | none => throw (.notInteger slot tree)
  | tree => throw (.notInteger slot tree)

def partOf (A : Terms α) : Int → Terms α
  | .ofNat k => A.gradePart k
  | .negSucc _ => .empty

/-- Performs an operation on operands, given as trees with their outcomes. The operands are needed in
their order; a grade is needed after its operand and an exponent before it. -/
def perform (engine : Engine α) (s : Signature) (op : Op)
    (args : List (Tree × Except (Error α) (Terms α))) : Except (Error α) (Terms α) :=
  match op, args with
  | .add, [(_, a), (_, b)] => return (← a).add (← b)
  | .negate, [(_, a)] => return (← a).neg
  | .geometricProduct, [(_, a), (_, b)] => return (← a).geometricProduct s (← b)
  | .outerProduct, [(_, a), (_, b)] => return (← a).outerProduct s (← b)
  | .innerProduct, [(_, a), (_, b)] => return (← a).innerProduct s (← b)
  | .leftContraction, [(_, a), (_, b)] => return (← a).leftContraction s (← b)
  | .rightContraction, [(_, a), (_, b)] => return (← a).rightContraction s (← b)
  | .scalarProduct, [(_, a), (_, b)] => return (← a).scalarProduct s (← b)
  | .grade, [(_, a), (k, _)] => return partOf (← a) (← integerOf .grade k)
  | .reverse, [(_, a)] => return (← a).reverse
  | .involute, [(_, a)] => return (← a).involute
  | .dual, [(_, a)] => return (← a).dual s
  | .rightComplement, [(_, a)] => return (← a).rightComplement s
  | .leftComplement, [(_, a)] => return (← a).leftComplement s
  | .pseudoscalar, [] => return .pseudoscalar s
  | .scalarDivision, [(_, a), (_, b)] => do
    let A ← a
    divide engine s A (← b)
  | .power, [(_, a), (e, _)] => do
    let exponent ← integerOf .exponent e
    integerPower engine s (← a) exponent
  | _, _ => throw (.wrongOperands op args.length)

mutual

/-- The value of an expanded tree. -/
def evaluate (engine : Engine α) (s : Signature) : Tree → Except (Error α) (Terms α)
  | .literal value => return .single 0 (engine.number value)
  | .host source => return .single 0 (engine.input source)
  | .blade factors => bladeTerms s factors engine.number
  | .typed (.host source) spec => do
    return inputTerms engine s.dimension source (← checkedGrades s spec)
  | .typed operand spec => do
    let grades ← checkedGrades s spec
    return selectGrades (← evaluate engine s operand) grades
  | .operation op args => perform engine s op (evaluateEach engine s args)
  | .symbol name => throw (.unexpanded (.symbol name))
  | .call name args => throw (.unexpanded (.call name args))
  | .argument index => throw (.unexpanded (.argument index))
  | .unknown => throw (.unknownNode .unknown)

def evaluateEach (engine : Engine α) (s : Signature) :
    List Tree → List (Tree × Except (Error α) (Terms α))
  | [] => []
  | t :: ts => (t, evaluate engine s t) :: evaluateEach engine s ts

end

end Bladewright.Evaluation
