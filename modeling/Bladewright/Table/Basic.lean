import Bladewright.Table.Builtin
import Bladewright.Text.Quoted

/-!
Binding tables: references and functions by name, on top of the built-in ones. A definition is checked before it is
stored, and a rejected one leaves the table as it was.
-/
namespace Bladewright

/-- Binds a name anew in its place, or at the end. -/
def assign {α : Type} (entries : List (String × α)) (name : String) (value : α) : List (String × α) :=
  match entries with
  | [] => [(name, value)]
  | (n, v) :: rest => if n = name then (n, value) :: rest else (n, v) :: assign rest name value

/-- References and functions by name, and whether replacing a built-in one is worth a warning. -/
structure Table where
  references : List (String × Tree)
  functions : List (String × Callable)
  warns : Bool
deriving Inhabited

namespace Table

/-- A table with the built-in bindings or without any. -/
def initial (builtins warns : Bool) : Table :=
  if builtins then ⟨Builtin.references, Builtin.functions, warns⟩ else ⟨[], [], warns⟩

def builtin : Table := initial true true

def reference? (table : Table) (name : String) : Option Tree := table.references.lookup name

def function? (table : Table) (name : String) : Option Callable := table.functions.lookup name

inductive Error where
  | argumentsInReference (name : String) (rhs : Tree)
  | negativeArity (name : String) (arity : Int)
  | missingArgument (name : String) (arity highest : Int)
  | selfCall (name : String)

def Error.message : Error → String
  | .argumentsInReference name rhs =>
    "Reference " ++ Text.quoted name ++ " refers to function arguments: " ++ rhs.text
  | .negativeArity name arity =>
    "Function " ++ Text.quoted name ++ " has negative arity " ++ toString arity
  | .missingArgument name arity highest =>
    "Function " ++ Text.quoted name ++ " of arity " ++ toString arity ++ " refers to argument "
      ++ toString highest
  | .selfCall name => "Function " ++ Text.quoted name ++ " calls itself"

/-- Binds a reference, which must have no placeholders. -/
def defineReference (table : Table) (name : String) (rhs : Tree) : Except Error Table :=
  if 0 ≤ rhs.maxArgument then throw (.argumentsInReference name rhs)
  else return { table with references := assign table.references name rhs }

def storeFunction (table : Table) (name : String) (f : Callable) : Table :=
  { table with functions := assign table.functions name f }

/-- Binds a function, whose body must not need more arguments than it takes nor call it. -/
def defineFunction (table : Table) (name : String) (f : Callable) : Except Error Table := do
  if f.arity < 0 then throw (.negativeArity name f.arity)
  if f.arity ≤ f.body.maxArgument then throw (.missingArgument name f.arity f.body.maxArgument)
  if f.body.callsTo name then throw (.selfCall name)
  return table.storeFunction name f

def define (table : Table) (name : String) : Binding → Except Error Table
  | .reference rhs => table.defineReference name rhs
  | .function f => table.defineFunction name f

def text (table : Table) : String :=
  "VariableInfo(" ++ toString table.references.length ++ " references, "
    ++ toString table.functions.length ++ " functions)"

/-- The names that are not built in, sorted. -/
def newNames {α : Type} (entries builtins : List (String × α)) : List String :=
  ((entries.map (·.1)).filter fun n => (builtins.lookup n).isNone).mergeSort (· ≤ ·)

def userReferences (table : Table) : List String := newNames table.references Builtin.references

def userFunctions (table : Table) : List String := newNames table.functions Builtin.functions

end Table

end Bladewright
