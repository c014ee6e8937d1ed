import Bladewright.Host.Datum
import Bladewright.Host.Writable

/-!
Why a source text is no program of the algebraic language.
-/
namespace Bladewright.Surface

open Bladewright.Host

inductive Owner where
  | lambda
  | function (name : String)
deriving DecidableEq, Repr

def Owner.text : Owner → String
  | .lambda => "lambda"
  | .function name => "function " ++ Text.quoted name

def literalText (value : Literal) : String :=
  match value with
  | .foreign text => text
  | _ => match Datum.ofLiteral value with
    | .ok d => d.text
    | .error _ => ""

inductive Error where
  | invalidSyntax
  | unreadable (fault : SyntaxFault)
  | unwritable
  | emptyProgram
  | lastNotExpression (statement : Stmt)
  | notSingleName (statement : Stmt)
  | notHintedName (statement : Stmt)
  | earlyExpression (statement : Stmt)
  | unsupportedStatement (statement : Stmt)
  | notExpression (kind : String)
  | notSource (kind : String)
  | noReturn (owner : Owner)
  | unsupportedLocal (owner : Owner) (statement : Stmt)
  | unknownType (type : Expr)
  | negativeGrade (grade : Int)
  | notGrade (grade : Expr)
  | noGrades
  | unsupportedSyntax (e : Expr)
  | unsupportedLiteral (value : Literal)
  | unsupportedOperator (kind : String) (e : Expr)
  | keywordArguments (e : Expr)
  | starredArguments (e : Expr)
  | notTwoArguments (e : Expr)
  | notOneArgument (type : String) (e : Expr)
  | notPlainParameters (owner : Owner)
  | defaultValues (owner : Owner)
  | typedParameter (owner : Owner) (name : String)
  | decorated (owner : Owner)
  | typedResult (owner : Owner)
  | reassigned (owner : Owner) (name : String)
  | calledParameter (name : String)
  | hiddenParameter (name : String) (e : Expr)
  | notOneFunction
  | notFunction (statement : Stmt)

namespace Error

def ofFault : SyntaxFault → Error
  | .invalid | .malformed | .indentation | .tabs => invalidSyntax
  | fault => unreadable fault

def isMalformed : Error → Bool
  | notPlainParameters _ | defaultValues _ | typedParameter .. | decorated _ | typedResult _
  | reassigned .. | calledParameter _ | hiddenParameter .. | notOneFunction | notFunction _ => true
  | _ => false

/-- Whether an error has a message: what it is about must be writable. -/
def hasMessage : Error → Bool
  | unreadable _ | unwritable => false
  | lastNotExpression s | notSingleName s | notHintedName s | earlyExpression s | unsupportedStatement s
  | unsupportedLocal _ s | notFunction s => s.isWritable
  | unknownType e | notGrade e | unsupportedSyntax e | unsupportedOperator _ e | keywordArguments e
  | starredArguments e | notTwoArguments e | notOneArgument _ e | hiddenParameter _ e => e.isWritable
  | _ => true

def message : Error → String
  | invalidSyntax => "Invalid syntax"
  | unreadable _ | unwritable => ""
  | emptyProgram => "Empty program: expected an expression"
  | lastNotExpression s =>
    "The last statement must be an expression, got " ++ s.kind ++ ": " ++ s.source
  | notSingleName s => "Only single-name assignments are supported: " ++ s.source
  | notHintedName s => "Only names can be annotated: " ++ s.source
  | earlyExpression s => "Only the last statement may be an expression: " ++ s.source
  | unsupportedStatement s => "Unsupported statement " ++ s.kind ++ ": " ++ s.source
  | notExpression kind => "Expected an expression, got " ++ kind
  | notSource kind => "Cannot parse " ++ kind
  | noReturn owner => owner.text ++ " must end with 'return <expression>'"
  | unsupportedLocal owner s => owner.text ++ ": unsupported statement " ++ s.source
  | unknownType e => "Unknown type specification " ++ e.source
  | negativeGrade grade => "Grades are non-negative, got " ++ toString grade
  | notGrade e => "Grade must be an integer literal, got " ++ e.source
  | noGrades => "Empty grade tuple"
  | unsupportedSyntax e => "Unsupported syntax " ++ e.kind ++ ": " ++ e.source
  | unsupportedLiteral value => "Unsupported literal " ++ literalText value
  | unsupportedOperator kind e => "Unsupported operator " ++ kind ++ ": " ++ e.source
  | keywordArguments e => "Keyword arguments are not supported: " ++ e.source
  | starredArguments e => "Starred arguments are not supported: " ++ e.source
  | notTwoArguments e => "KVector(x, k) takes 2 arguments: " ++ e.source
  | notOneArgument type e => type ++ "(x) takes 1 argument: " ++ e.source
  | notPlainParameters owner => owner.text ++ ": only plain positional arguments are allowed"
  | defaultValues owner => owner.text ++ ": arguments cannot have default values"
  | typedParameter owner name =>
    owner.text ++ ": argument " ++ Text.quoted name ++ " is typed; function arguments must be untyped"
  | decorated owner => owner.text ++ ": decorators are not supported"
  | typedResult owner => owner.text ++ ": output type annotations are not supported"
  | reassigned owner name => owner.text ++ ": argument " ++ Text.quoted name ++ " cannot be reassigned"
  | calledParameter name => "Argument " ++ Text.quoted name ++ " cannot be called"
  | hiddenParameter name e =>
    Text.quoted name ++ " is a function argument or local and cannot appear inside the host expression "
      ++ e.source
  | notOneFunction => "Expected exactly one function definition"
  | notFunction s => "Not a function definition: " ++ s.source

end Error

end Bladewright.Surface
