import Bladewright.Code.Layout
import Bladewright.Coeff.Emit

/-!
Host code for results: an expression that computes the components and builds objects from them, or a function with
that expression as its result.
-/
namespace Bladewright.Code

open Bladewright.Host

/-- One object for each grade, or all components in one. -/
inductive Mode where
  | nested
  | flattened
deriving DecidableEq, Repr

def Mode.ofName? : String → Option Mode
  | "nested" => some .nested
  | "flattened" => some .flattened
  | _ => none

/-- Why there is no code for a result. -/
inductive Error where
  | layout (cause : Layout.Error)
  | unknownMode
  | malformed (fault : SyntaxFault)
  | coefficient (cause : Coeff.EmitError)
  | unwritable
  | tooDeep

def Error.message? : Error → Option String
  | .layout .emptyPartition => some "Empty grade partition"
  | .layout .missingGrade | .unknownMode | .malformed _ => none
  | .coefficient (.unsupported e) =>
    if e.isWritable then some ("Cannot emit coefficient " ++ e.text ++ " (" ++ e.kindName ++ ")") else none
  | .coefficient (.malformed _) | .coefficient .unwritable | .unwritable | .tooDeep => none

/-- How components are grouped, and the type of what is built from them. -/
structure Style where
  mode : String
  type : Option String
deriving Inhabited

def Style.read (style : Style) : Except Error (Mode × Option Expr) := do
  match Mode.ofName? style.mode with
  | none => throw .unknownMode
  | some mode => match style.type with
    | none => return (mode, none)
    | some text => return (mode, some (← (Expr.read text).mapError .malformed))

/-- Code that builds an object of a type from components. -/
def construct (type : Expr) (components : List Expr) : Expr :=
  .apply "construct" [type, .tuple components]

def kvectorType (grade : Int) (dimension : Nat) : Expr :=
  .subscript (.name "KVector") (.tuple [.int grade, .int dimension])

def emitAll (components : List Coeff) : Except Error (List Expr) :=
  components.mapM fun c => c.emit.mapError .coefficient

/-- The code of a layout: one object, or one for each grade. -/
def build (l : Layout) : Mode → Option Expr → Except Error Expr
  | .flattened, type => do
    let elements ← emitAll l.components
    match type with
    | some type => return construct type elements
    | none => return .tuple elements
  | .nested, type => do
    let objects ← l.grades.mapM fun (k, cs) =>
      return construct (type.getD (kvectorType k l.dimension)) (← emitAll cs)
    match objects with
    | [object] => return object
    | _ => return .tuple objects

/-- The code of a result. -/
def generate (result : Result) (style : Style) : Except Error Expr := do
  let l ← (Layout.ofResult result).mapError .layout
  let (mode, type) ← style.read
  build l mode type

/-- The host inputs of components, without repetitions and sorted. -/
def hostInputs (components : List Coeff) : List String :=
  ((components.flatMap Coeff.symbols).eraseDups).mergeSort (· ≤ ·)

/-- The name of a local for a host input. -/
def localName (k : Nat) : String := "_input" ++ toString k

/-- Host inputs that are not plain names, each with a local for it. -/
def hoisted (components : List Coeff) : List (String × String) :=
  let sources := (hostInputs components).filter fun s => !Text.isIdentifier s
  sources.zipIdx.map fun (s, k) => (s, localName k)

/-- The assignment of a host input to its local. -/
def hoistStatement : String × String → Except Error Stmt
  | (source, name) => return .assign [.name name] (← (Expr.read source).mapError .malformed)

/-- A layout that reads locals in place of host inputs. -/
def renameInputs (l : Layout) (names : List (String × String)) : Layout :=
  if names.isEmpty then l
  else { l with grades := l.grades.map fun (k, cs) => (k, cs.map (Coeff.rename fun s => names.lookup s)) }

/-- The function of the host inputs `args` that computes a result. Host inputs that are not plain
names are evaluated once, into locals. -/
def generateFunction (result : Result) (args : List String) (name : String) (style : Style) :
    Except Error Stmt := do
  let l ← (Layout.ofResult result).mapError .layout
  let names := hoisted l.components
  let assignments ← names.mapM hoistStatement
  let l := renameInputs l names
  let (mode, type) ← style.read
  let value ← build l mode type
  let params := Expr.params [] (args.map fun a => .param a none none) none [] none
  return .function false name params none [] (assignments ++ [.ret (some value)])

end Bladewright.Code
