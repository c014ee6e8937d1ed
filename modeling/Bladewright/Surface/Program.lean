import Bladewright.Host.Indentation
import Bladewright.Surface.Convert

/-!
Programs: binding statements followed by one expression. Functions are written as `def` or `lambda`, and the locals of
a `def` are put in where they are used.
-/
namespace Bladewright.Surface

open Bladewright.Host

/-- What can be read: text, or syntax that has been read already. -/
inductive Source where
  | text (s : String)
  | module (body : List Stmt)
  | expression (e : Expr)
  | statement (s : Stmt)
  | expr (e : Expr)
  | other (kind : String)

/-- A program: bindings in the order of their definition, and the final expression. -/
structure Program where
  bindings : List (String × Binding)
  expression : Tree
deriving Inhabited

def Source.statements : Source → Except Error (List Stmt)
  | .text s => (readStatements (Text.trim (Text.dedent s))).mapError .ofFault
  | .module body => return body
  | .expression e | .expr e => return [.expression e]
  | .statement s => return [s]
  | .other kind => throw (.notSource kind)

def paramName : Expr → String
  | .param name _ _ => name
  | _ => ""

def typedParam? (params : List Expr) : Option String :=
  params.findSome? fun
    | .param name (some _) _ => some name
    | _ => none

def readParams (owner : Owner) : Expr → Except Error (List String)
  | .params positional regular rest keywords keywordRest => do
    if !positional.isEmpty || !keywords.isEmpty || rest.isSome || keywordRest.isSome then
      throw (.notPlainParameters owner)
    if regular.any fun p => p.default?.isSome then throw (.defaultValues owner)
    match typedParam? regular with
    | some name => throw (.typedParameter owner name)
    | none => return regular.map paramName
  | _ => return []

def readLambda (params body : Expr) : Except Error Callable := do
  let names ← readParams .lambda params
  return ⟨names.length, ← convert ⟨names, []⟩ body⟩

def isDocumentation : Stmt → Bool
  | .expression (.literal (.str _ _)) => true
  | _ => false

def readLocal (owner : Owner) (params : List String) :
    Stmt → Except Error (String × Option Expr × Expr)
  | .assign [.name name] value =>
    if params.contains name then throw (.reassigned owner name) else return (name, none, value)
  | .annotated (.name name) hint (some value) _ =>
    if params.contains name then throw (.reassigned owner name) else return (name, some hint, value)
  | s@(.augmented (.name name) _ _) | s@(.annotated (.name name) _ _ _) =>
    if params.contains name then throw (.reassigned owner name) else throw (.unsupportedLocal owner s)
  | s => throw (.unsupportedLocal owner s)

def readLocals (owner : Owner) (scope : Scope) : List Stmt → Except Error Scope
  | [] => return scope
  | s :: rest => do
    let (name, hint, value) ← readLocal owner scope.params s
    let tree ← convert scope value
    let tree ← match hint with
      | none => pure tree
      | some type => do pure (.typed tree (← readType type))
    readLocals owner ⟨scope.params, (name, tree) :: scope.locals⟩ rest

def readDef (name : String) (params : Expr) (returns : Option Expr) (decorators : List Expr)
    (body : List Stmt) : Except Error Callable := do
  let owner := Owner.function name
  if !decorators.isEmpty then throw (.decorated owner)
  if returns.isSome then throw (.typedResult owner)
  let names ← readParams owner params
  let body := if body.head?.any isDocumentation then body.tail else body
  match body.getLast? with
  | some (.ret (some value)) =>
    let scope ← readLocals owner ⟨names, []⟩ body.dropLast
    return ⟨names.length, ← convert scope value⟩
  | _ => throw (.noReturn owner)

def readBinding : Stmt → Except Error (String × Binding)
  | .function false name params returns decorators body =>
    return (name, .function (← readDef name params returns decorators body))
  | .assign [.name name] (.lambda params body) => return (name, .function (← readLambda params body))
  | .assign [.name name] value => return (name, .reference (← convert .empty value))
  | s@(.assign _ _) => throw (.notSingleName s)
  | .annotated (.name name) hint value _ => do
    let spec ← readType hint
    let operand ← match value with
      | none => pure (.symbol name)
      | some value => convert .empty value
    return (name, .reference (.typed operand spec))
  | s@(.annotated ..) => throw (.notHintedName s)
  | s@(.expression _) => throw (.earlyExpression s)
  | s => throw (.unsupportedStatement s)

def readProgram (source : Source) : Except Error Program := do
  let statements ← source.statements
  match statements.getLast? with
  | none => throw .emptyProgram
  | some (.expression e) =>
    let bindings ← statements.dropLast.mapM readBinding
    return ⟨bindings, ← convert .empty e⟩
  | some s => throw (.lastNotExpression s)

def readExpression (source : Source) : Except Error Tree := do
  let e ← match source with
    | .text s => readExpr s
    | .expression e | .expr e | .statement (.expression e) => pure e
    | .module _ => throw (.notExpression "Module")
    | .statement s => throw (.notExpression s.kind)
    | .other kind => throw (.notExpression kind)
  convert .empty e

def readFunction (source : Source) : Except Error Callable := do
  match ← source.statements with
  | [.expression (.lambda params body)] => readLambda params body
  | [s] => match ← readBinding s with
    | (_, .function f) => return f
    | _ => throw (.notFunction s)
  | _ => throw .notOneFunction

end Bladewright.Surface
