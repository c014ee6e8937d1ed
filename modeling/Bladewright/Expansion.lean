import Bladewright.Table.Basic

/-!
Expansion: every reference and every call is replaced by what it stands for, until only literals, blades, host
expressions, typed operands and operations are left. Names that are not bound are blades or, directly under a type,
host inputs.
-/
namespace Bladewright.Expansion

open Bladewright.Numeral

inductive Kind where
  | reference
  | function
deriving DecidableEq, Repr

/-- A binding that is being expanded. -/
structure Key where
  kind : Kind
  name : String
deriving DecidableEq, Repr

/-- Why a tree cannot be expanded. -/
inductive Error where
  | noFunction (index : Int)
  | noArgument (index : Int)
  | beforeArguments (index : Int)
  | hostArgument (index : Int)
  | cycle (kind : Kind) (names : List String)
  | unboundReference (name : String)
  | unboundFunction (name : String)
  | wrongArity (name : String) (arity : Int) (args : List Tree)
  | unknownNode (tree : Tree)
  | tooManyDigits

def Error.message? : Error → Option String
  | .noFunction index =>
    some ("Argument placeholder " ++ (Tree.argument index).text ++ " outside of a function body")
  | .noArgument index => some ("Argument placeholder " ++ (Tree.argument index).text ++ " out of range")
  | .beforeArguments _ | .tooManyDigits => none
  | .hostArgument index =>
    some ("Function argument " ++ (Tree.argument index).text ++ " cannot be passed to the host call")
  | .cycle .reference names => some ("Cyclic reference: " ++ " -> ".intercalate names)
  | .cycle .function names => some ("Cyclic function call: " ++ " -> ".intercalate names)
  | .unboundReference name => some ("Unbound reference " ++ Text.quoted name)
  | .unboundFunction name => some ("Unbound function " ++ Text.quoted name)
  | .wrongArity name arity args =>
    some (name ++ " takes " ++ toString arity ++ " argument(s), got " ++ toString args.length ++ ": "
      ++ (Tree.call name args).text)
  | .unknownNode tree => some ("Unknown expression node " ++ tree.text)

/-- The path from a binding on the stack back to itself. The stack has the innermost binding first. -/
def cyclePath (stack : List Key) (key : Key) : List String :=
  (stack.reverse.dropWhile (· ≠ key)).map (·.name) ++ [key.name]

/-- The host text of a literal. -/
def literalSource : Scalar → String
  | .exact q => if q.den = 1 then toString q.num else (binary64.round q).text
  | .approx q => (binary64.round q).text
  | .infinity negative => (Floating.infinite negative).text
  | .unsigned | .undefined => Floating.nan.text

mutual

/-- The host text of a tree, if it uses no binding. -/
def hostSource (table : Table) : Tree → Except Error (Option String)
  | .host source => return some source
  | .literal value => if value.isWritable then return some (literalSource value) else throw .tooManyDigits
  | .argument index => throw (.hostArgument index)
  | .symbol name => return if (table.reference? name).isSome then none else some name
  | .call name args =>
    if (table.function? name).isSome then return none
    else do
      match ← hostSources table args with
      | some sources => return some (name ++ "(" ++ ", ".intercalate sources ++ ")")
      | none => return none
  | .blade _ | .operation .. | .typed .. | .unknown => return none

def hostSources (table : Table) : List Tree → Except Error (Option (List String))
  | [] => return some []
  | t :: ts => do
    let source ← hostSource table t
    let sources ← hostSources table ts
    match source, sources with
    | some source, some sources => return some (source :: sources)
    | _, _ => return none

end

/-- The expanded arguments of the innermost call, if any. -/
abbrev Frame := Option (List Tree)

/-- The argument that a placeholder stands for. A negative index counts back from the last one. -/
def placeholder (frame : Frame) (index : Int) : Except Error Tree :=
  match frame with
  | none => throw (.noFunction index)
  | some args =>
    if (args.length : Int) ≤ index then throw (.noArgument index)
    else
      let position := if index < 0 then index + args.length else index
      match position with
      | .ofNat i => match args[i]? with
        | some t => return t
        | none => throw (.noArgument index)
      | .negSucc _ => throw (.beforeArguments index)

/-- How a binding that is not yet on the stack is expanded: its key, the arguments for its
placeholders, and its tree. -/
abbrev Enter := Key → Frame → Tree → Except Error Tree

/-- Expands a name: a reference, a host input under a type, or a blade. -/
def expandSymbol (table : Table) (stack : List Key) (enter : Enter) (host : Bool) (name : String) :
    Except Error Tree :=
  match table.reference? name with
  | some rhs =>
    let key : Key := ⟨.reference, name⟩
    if key ∈ stack then
      if host && stack.head? == some key && rhs.typesItself name then return .host name
      else throw (.cycle .reference (cyclePath stack key))
    else enter key none rhs
  | none =>
    if host then return .host name
    else match Blade.parseName name with
      | .ok (some factors) => return .blade (factors.map Int.ofNat)
      | .ok none => throw (.unboundReference name)
      | .error _ => throw .tooManyDigits

mutual

/-- Expands a tree, with the bindings on the stack being expanded. -/
def visit (table : Table) (stack : List Key) (enter : Enter) (host : Bool) (frame : Frame) :
    Tree → Except Error Tree
  | .literal value => return .literal value
  | .blade factors => return .blade factors
  | .host source => return .host source
  | .argument index => placeholder frame index
  | .symbol name => expandSymbol table stack enter host name
  | .typed operand spec => return .typed (← visit table stack enter true frame operand) spec
  | .operation op args => return .operation op (← visitAll table stack enter frame args)
  | .call name args => match table.function? name with
    | none => do
      if host then
        if let some source ← hostSource table (.call name args) then return .host source
      throw (.unboundFunction name)
    | some f => do
      if f.arity ≠ args.length then throw (.wrongArity name f.arity args)
      let key : Key := ⟨.function, name⟩
      if key ∈ stack then throw (.cycle .function (cyclePath stack key))
      enter key (some (← visitAll table stack enter frame args)) f.body
  | .unknown => throw (.unknownNode .unknown)

def visitAll (table : Table) (stack : List Key) (enter : Enter) (frame : Frame) :
    List Tree → Except Error (List Tree)
  | [] => return []
  | t :: ts => return (← visit table stack enter false frame t) :: (← visitAll table stack enter frame ts)

end

/-- Enters a binding, with so many bindings left that are not on the stack. None is entered twice, so
with none left there is nothing to enter. -/
def enterWithin (table : Table) : Nat → List Key → Enter
  | 0, stack, key, _, _ => throw (.cycle key.kind (cyclePath stack key))
  | left + 1, stack, key, frame, tree =>
    visit table (key :: stack) (enterWithin table left (key :: stack)) false frame tree

/-- Expands a tree under a table. -/
def expand (table : Table) (tree : Tree) : Except Error Tree :=
  visit table [] (enterWithin table (table.references.length + table.functions.length) [])
    false none tree

end Bladewright.Expansion
