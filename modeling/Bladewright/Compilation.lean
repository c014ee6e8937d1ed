import Bladewright.Code.Generate
import Bladewright.Evaluation.Symbolic
import Bladewright.Expansion
import Bladewright.Host.Fault
import Bladewright.Setting.Basic
import Bladewright.Signature.Spec
import Bladewright.Surface.Program

/-!
Compilation: a program under a signature is read, expanded, evaluated and turned into host code. A session keeps a
record of what happened, also when it ends with a failure.
-/
namespace Bladewright

open Bladewright.Host

/-- What a session has to report. -/
inductive Event where
  | parsed (bindings : Nat) (expression : Tree)
  | overridden (name : String) (warned : Bool)
  | expanded (before after : Tree)
  | evaluated (tree : Tree) (result : Result)
  | compiled (signature : Signature) (source : String)
  | generated (source : String)

def Event.origin : Event → String
  | .parsed .. => "compiler.parser"
  | .overridden .. | .expanded .. => "compiler.bindings"
  | .evaluated .. => "compiler.evaluate"
  | .compiled .. | .generated _ => "compiler.frontend"

def Event.message : Event → String
  | .parsed bindings expression =>
    "Parsed " ++ toString bindings ++ " binding(s), expression " ++ expression.text
  | .overridden name _ => "Binding " ++ Text.quoted name ++ " overrides a built-in"
  | .expanded before after => "Expanded " ++ before.text ++ " -> " ++ after.text
  | .evaluated tree result => "Evaluated " ++ tree.text ++ " -> " ++ result.text
  | .compiled signature source => "Compiled under " ++ signature.text ++ ": " ++ source
  | .generated source => "Generated function:\n" ++ source

def Event.warning? : Event → Option String
  | .overridden name true =>
    some ("Binding " ++ Text.quoted name ++ " overrides the built-in of the same name")
  | _ => none

/-- How a session fails, by the stage that failed. -/
inductive Failure where
  | signature (cause : Signature.SpecError)
  | surface (cause : Surface.Error)
  | table (cause : Table.Error)
  | notTree
  | notFunction (value : Datum)
  | expansion (cause : Expansion.Error)
  | evaluation (cause : Evaluation.Error Coeff)
  | code (cause : Code.Error)
  | host (cause : Host.Fault)
  | setting (cause : Setting.Fault)

def Failure.message? : Failure → Option String
  | .signature cause => cause.message?
  | .surface cause => if cause.hasMessage then some cause.message else none
  | .table cause => some cause.message
  | .notTree => none
  | .notFunction value => some ("Cannot interpret " ++ value.text ++ " as a function binding")
  | .expansion cause => cause.message?
  | .evaluation cause => cause.message?
  | .code cause => cause.message?
  | .host cause => cause.message?
  | .setting _ => none

/-- Computations that may fail and that record what happens. -/
abbrev Session := ExceptT Failure (StateM (List Event))

namespace Session

def record (event : Event) : Session Unit := modify (· ++ [event])

/-- An outcome of a stage as that of the session. -/
def settle {ε α : Type} (wrap : ε → Failure) : Except ε α → Session α
  | .ok a => return a
  | .error e => throw (wrap e)

/-- What a session ends with, and its record. -/
def outcome {α : Type} (session : Session α) : Except Failure α × List Event :=
  (session.run).run []

end Session

open Session

namespace Table

/-- Adds a binding; one in the place of a built-in is recorded. -/
def bind (table : Table) (name : String) (binding : Binding) : Session Table := do
  let table' ← settle .table (table.define name binding)
  if Builtin.binds name then record (.overridden name table.warns)
  return table'

def bindAll (table : Table) : List (String × Binding) → Session Table
  | [] => return table
  | (name, binding) :: rest => do bindAll (← table.bind name binding) rest

end Table

inductive ReferenceSpec where
  | text (source : String)
  | tree (t : Tree)
  | other

inductive FunctionSpec where
  | text (source : String)
  | callable (f : Callable)
  | other (value : Datum)

/-- Bindings as they are given, by text or as trees. -/
structure TableSpec where
  references : List (String × ReferenceSpec)
  functions : List (String × FunctionSpec)
  warns : Bool
  builtins : Bool

def ReferenceSpec.read : ReferenceSpec → Session Tree
  | .text source => settle .surface (Surface.readExpression (.text source))
  | .tree t => return t
  | .other => throw .notTree

def FunctionSpec.read : FunctionSpec → Session Callable
  | .text source => settle .surface (Surface.readFunction (.text source))
  | .callable f => return f
  | .other value => throw (.notFunction value)

def Table.bindReferences (table : Table) : List (String × ReferenceSpec) → Session Table
  | [] => return table
  | (name, spec) :: rest => do
    let rhs ← spec.read
    bindReferences (← table.bind name (.reference rhs)) rest

def Table.bindFunctions (table : Table) : List (String × FunctionSpec) → Session Table
  | [] => return table
  | (name, spec) :: rest => do
    let f ← spec.read
    bindFunctions (← table.bind name (.function f)) rest

/-- The table of given bindings, references first. -/
def TableSpec.build (spec : TableSpec) : Session Table := do
  let table ← (Table.initial spec.builtins spec.warns).bindReferences spec.references
  table.bindFunctions spec.functions

def parseProgram (source : Surface.Source) : Session Surface.Program := do
  let program ← settle .surface (Surface.readProgram source)
  record (.parsed program.bindings.length program.expression)
  return program

def expandTree (table : Table) (tree : Tree) : Session Tree := do
  let expanded ← settle .expansion (Expansion.expand table tree)
  record (.expanded tree expanded)
  return expanded

def evaluateTree (s : Signature) (tree : Tree) : Session Result := do
  let A ← settle .evaluation (Evaluation.evaluateMultivector s tree)
  let result := Result.ofMultivector A
  record (.evaluated tree result)
  return result

/-- What a compilation yields. -/
structure Compilation where
  signature : Signature
  expanded : Tree
  result : Result
  code : Expr

def Compilation.source (c : Compilation) : String := c.code.source

/-- Reads, expands and evaluates a program, and generates its code. -/
def compile (signature : Datum) (source : Surface.Source) (style : Code.Style) (table : Table) :
    Session Compilation := do
  let s ← settle .signature (Signature.ofSpec signature)
  let program ← parseProgram source
  let table ← table.bindAll program.bindings
  let expanded ← expandTree table program.expression
  let result ← evaluateTree s expanded
  let code ← settle .code (Code.generate result style)
  if !code.isShallow then throw (.code .tooDeep)
  if !code.isWritable then throw (.code .unwritable)
  record (.compiled s code.source)
  return ⟨s, expanded, result, code⟩

/-- Compiles a program into a function of host inputs. -/
def compileFunction (signature : Datum) (source : Surface.Source) (args : List String) (name : String)
    (style : Code.Style) (table : Table) : Session Stmt := do
  let compilation ← compile signature source style table
  let function ← settle .code (Code.generateFunction compilation.result args name style)
  if !function.isWritable then throw (.code .unwritable)
  record (.generated (listing [function]))
  return function

end Bladewright
