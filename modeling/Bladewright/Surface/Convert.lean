import Bladewright.Surface.Error
import Bladewright.Text.Lines
import Bladewright.Tree.Basic

/-!
Host expressions as expression trees.
-/
namespace Bladewright.Surface

open Bladewright.Host Bladewright.Numeral

def readExpr (source : String) : Except Error Expr :=
  (Expr.read (Text.trim (Text.dedent source))).mapError .ofFault

def readGrade : Expr → Except Error Int
  | .literal (.int n) => if n < 0 then throw (.negativeGrade n) else return n
  | e => throw (.notGrade e)

def readGrades : Expr → Except Error (List Int)
  | .tuple [] => throw .noGrades
  | .tuple es => es.mapM readGrade
  | e => return [← readGrade e]

def readTypeWithin : Nat → Expr → Except Error GradeSpec
  | depth, e => match e with
    | .name id => match GradeSpec.byName? id with
      | some spec => return spec
      | none => throw (.unknownType e)
    | .literal (.str s _) => match depth with
      | 0 => throw .invalidSyntax
      | depth + 1 => do readTypeWithin depth (← readExpr s)
    | .subscript (.name "KVector") index => do
      let grade ← readGrade index
      if index.isWritable then return .named grade ("KVector[" ++ index.source ++ "]") else throw .unwritable
    | .literal _ | .tuple _ => return ⟨some (← readGrades e), false, ""⟩
    | _ => throw (.unknownType e)

/-- A type. A quoted type is shorter than its quotation, so the text bounds the nesting. -/
def readType (e : Expr) : Except Error GradeSpec :=
  match e with
  | .literal (.str s _) => readTypeWithin (s.length + 1) e
  | _ => readTypeWithin 0 e

def operatorFunction? : BinaryOp → Option String
  | .add => some "add"
  | .sub => some "subtract"
  | .mul => some "geometric_product"
  | .bitXor => some "outer_product"
  | .bitOr => some "inner_product"
  | .shiftLeft => some "left_contraction"
  | .shiftRight => some "right_contraction"
  | .bitAnd => some "exterior_antiproduct"
  | .div => some "division"
  | .pow => some "power"
  | _ => none

def isInlineType (name : String) : Bool :=
  ["Scalar", "Vector", "Bivector", "Trivector", "Quadvector", "Antiscalar", "Pseudoscalar", "KVector",
    "Multivector"].contains name

/-- The names that mean something else inside a function: its parameters, and locals with the trees
they stand for, the latest first. -/
structure Scope where
  params : List String
  locals : List (String × Tree)

namespace Scope

def empty : Scope := ⟨[], []⟩

def param? (scope : Scope) (name : String) : Option Nat :=
  (scope.params.reverse.idxOf? name).map (scope.params.length - 1 - ·)

def resolve (scope : Scope) (name : String) : Tree :=
  match scope.param? name with
  | some i => .argument i
  | none => (scope.locals.lookup name).getD (.symbol name)

def binds (scope : Scope) (name : String) : Bool :=
  scope.params.contains name || (scope.locals.lookup name).isSome

end Scope

/-- A host expression, which must not mention parameters or locals. -/
def hostExpr (scope : Scope) (e : Expr) : Except Error Tree :=
  match e.names.find? scope.binds with
  | some name => throw (.hiddenParameter name e)
  | none => if e.isWritable then return .host e.source else throw .unwritable

def floatLiteral : Floating → Scalar
  | .finite q => .approx q
  | .negZero => .approx 0
  | .infinite negative => .infinity negative
  | .nan => .undefined

def literalTree : Literal → Except Error Tree
  | .int n => return .literal (.ofInt n)
  | .float x => return .literal (floatLiteral x)
  | value => throw (.unsupportedLiteral value)

def unaryTree (op : UnaryOp) (e : Expr) : Tree → Except Error Tree
  | operand => match op, operand with
    | .plus, _ => return operand
    | .minus, .literal value => return .literal (-value)
    | .minus, _ => return .call "negate" [operand]
    | .invert, _ => return .call "reverse" [operand]
    | .not, _ => throw (.unsupportedOperator op.kind e)

def isStarredArgument : Expr → Bool
  | .starred _ => true
  | _ => false

def typedTree (name : String) (e : Expr) (args : List Expr) (trees : List (Except Error Tree)) :
    Except Error Tree :=
  match name, args, trees with
  | "KVector", [_, k], tree :: _ => do
    let grade ← readGrade k
    return .typed (← tree) (.named grade ("KVector[" ++ toString grade ++ "]"))
  | "KVector", _, _ => throw (.notTwoArguments e)
  | "Multivector", [_, grades], tree :: _ => do
    let operand ← tree
    return .typed operand ⟨some (← readGrades grades), false, ""⟩
  | _, [_], tree :: _ => do
    let operand ← tree
    return .typed operand ((GradeSpec.byName? name).getD .multivector)
  | _, _, _ => throw (.notOneArgument name e)

def callTree (scope : Scope) (name : String) (e : Expr) (args keywords : List Expr)
    (trees : List (Except Error Tree)) : Except Error Tree := do
  if !keywords.isEmpty then throw (.keywordArguments e)
  if args.any isStarredArgument then throw (.starredArguments e)
  if scope.params.contains name then throw (.calledParameter name)
  if isInlineType name then typedTree name e args trees
  else return .call name (← trees.mapM id)

mutual

def convert (scope : Scope) : Expr → Except Error Tree
  | .literal value => literalTree value
  | .name id => return scope.resolve id
  | .binary op left right => match operatorFunction? op with
    | none => throw (.unsupportedOperator op.kind (.binary op left right))
    | some f => do
      let l ← convert scope left
      let r ← convert scope right
      return .call f [l, r]
  | .unary op operand => do unaryTree op (.unary op operand) (← convert scope operand)
  | .call (.name f) args keywords =>
    callTree scope f (.call (.name f) args keywords) args keywords (convertEach scope args)
  | .call function args keywords => hostExpr scope (.call function args keywords)
  | .attribute value field => hostExpr scope (.attribute value field)
  | .subscript value index => hostExpr scope (.subscript value index)
  | e => throw (.unsupportedSyntax e)

def convertEach (scope : Scope) : List Expr → List (Except Error Tree)
  | [] => []
  | e :: es => convert scope e :: convertEach scope es

end

end Bladewright.Surface
