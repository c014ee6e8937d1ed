import Bladewright.Blade.Name
import Bladewright.Coeff.NumberText

/-!
Expression trees of the algebraic language. Source text yields trees with names, calls and placeholders; expansion
leaves only literals, blades, host expressions, typed operands and operations.
-/
namespace Bladewright

/-- The operations of the algebra. -/
inductive Op where
  | add
  | negate
  | geometricProduct
  | outerProduct
  | innerProduct
  | leftContraction
  | rightContraction
  | scalarProduct
  | grade
  | reverse
  | involute
  | dual
  | rightComplement
  | leftComplement
  | pseudoscalar
  | scalarDivision
  | power
deriving DecidableEq, Repr, Inhabited

namespace Op

def all : List Op :=
  [add, negate, geometricProduct, outerProduct, innerProduct, leftContraction, rightContraction,
    scalarProduct, grade, reverse, involute, dual, rightComplement, leftComplement, pseudoscalar,
    scalarDivision, power]

def name : Op → String
  | add => "add"
  | negate => "negate"
  | geometricProduct => "geometric_product"
  | outerProduct => "outer_product"
  | innerProduct => "inner_product"
  | leftContraction => "left_contraction"
  | rightContraction => "right_contraction"
  | scalarProduct => "scalar_product"
  | grade => "grade"
  | reverse => "reverse"
  | involute => "involute"
  | dual => "dual"
  | rightComplement => "right_complement"
  | leftComplement => "left_complement"
  | pseudoscalar => "pseudoscalar"
  | scalarDivision => "scalar_division"
  | power => "power"

def arity : Op → Nat
  | pseudoscalar => 0
  | negate | reverse | involute | dual | rightComplement | leftComplement => 1
  | _ => 2

end Op

/-- The grades that a type selects: some or, without a list, all of them. With `complement` they count
down from the dimension. -/
structure GradeSpec where
  grades : Option (List Int)
  complement : Bool
  name : String
deriving DecidableEq, Repr, Inhabited

namespace GradeSpec

/-- The selected grades in `n` dimensions, ascending. Grades that do not exist are kept. -/
def resolve (spec : GradeSpec) (n : Nat) : List Int :=
  match spec.grades with
  | none => (List.range (n + 1)).map Int.ofNat
  | some grades =>
    let grades := if spec.complement then grades.map ((n : Int) - ·) else grades
    grades.eraseDups.mergeSort (· ≤ ·)

def text (spec : GradeSpec) : String :=
  if spec.name ≠ "" then spec.name
  else match spec.grades with
    | none => "Multivector"
    | some grades => "KVector[" ++ ", ".intercalate (grades.map toString) ++ "]"

def named (grade : Int) (name : String) : GradeSpec := ⟨some [grade], false, name⟩

def antiscalar : GradeSpec := ⟨some [0], true, "Antiscalar"⟩

def multivector : GradeSpec := ⟨none, false, "Multivector"⟩

def byName? : String → Option GradeSpec
  | "Scalar" | "int" | "float" => some (named 0 "Scalar")
  | "Vector" => some (named 1 "Vector")
  | "Bivector" => some (named 2 "Bivector")
  | "Trivector" => some (named 3 "Trivector")
  | "Quadvector" => some (named 4 "Quadvector")
  | "Antiscalar" | "Pseudoscalar" => some antiscalar
  | "Multivector" => some multivector
  | _ => none

end GradeSpec

/-- Expression trees. Placeholders stand for the arguments of a function, in its body. -/
inductive Tree where
  | literal (value : Scalar)
  | symbol (name : String)
  | blade (factors : List Int)
  | call (name : String) (args : List Tree)
  | argument (index : Int)
  | operation (op : Op) (args : List Tree)
  | typed (operand : Tree) (spec : GradeSpec)
  | host (source : String)
  | unknown
deriving Inhabited

namespace Tree

mutual

def text : Tree → String
  | literal value => value.text false
  | symbol name => name
  | blade factors => Blade.productText factors
  | call name args => name ++ "(" ++ ", ".intercalate (texts args) ++ ")"
  | argument index => "_" ++ toString index
  | operation op args => op.name ++ "(" ++ ", ".intercalate (texts args) ++ ")"
  | typed operand spec => text operand ++ "::" ++ spec.text
  | host source => source
  | unknown => "<unknown>"

def texts : List Tree → List String
  | [] => []
  | t :: ts => text t :: texts ts

end

mutual

/-- Whether all numbers in a tree are short enough to be written. -/
def isWritable : Tree → Bool
  | literal value => value.isWritable
  | call _ args | operation _ args => areWritable args
  | typed operand _ => isWritable operand
  | blade factors => factors.all fun i => Numeral.isWritable (i + 1)
  | argument index => Numeral.isWritable index
  | symbol _ | host _ | unknown => true

def areWritable : List Tree → Bool
  | [] => true
  | t :: ts => isWritable t && areWritable ts

end

mutual

/-- A tree with all trees inside it. -/
def walk : Tree → List Tree
  | t@(call _ args) => t :: walkAll args
  | t@(operation _ args) => t :: walkAll args
  | t@(typed operand _) => t :: walk operand
  | t => [t]

def walkAll : List Tree → List Tree
  | [] => []
  | t :: ts => walk t ++ walkAll ts

end

def argument? : Tree → Option Int
  | argument index => some index
  | _ => none

def arguments (t : Tree) : List Int := t.walk.filterMap argument?

/-- The largest placeholder index of a tree, or minus one if it has none. -/
def maxArgument (t : Tree) : Int :=
  match t.arguments with
  | [] => -1
  | i :: is => is.foldl max i

def isCallOf (name : String) : Tree → Bool
  | call f _ => f == name
  | _ => false

/-- Whether a function is called anywhere. -/
def callsTo (t : Tree) (name : String) : Bool := t.walk.any (isCallOf name)

def isSymbol (name : String) : Tree → Bool
  | symbol s => s == name
  | _ => false

def isTypedSymbol (name : String) : Tree → Bool
  | typed operand _ => isSymbol name operand
  | _ => false

/-- Whether a name stands in a tree once, directly under a type. -/
def typesItself (t : Tree) (name : String) : Bool :=
  t.walk.countP (isSymbol name) == 1 && t.walk.countP (isTypedSymbol name) == 1

end Tree

structure Callable where
  arity : Int
  body : Tree
deriving Inhabited

inductive Binding where
  | reference (rhs : Tree)
  | function (f : Callable)
deriving Inhabited

end Bladewright
