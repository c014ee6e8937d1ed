import Bladewright.Compilation
import Bladewright.Host.Evaluation

/-!
Execution: a program is compiled and its code run on host values, at once or as a kernel, which is a function of host
inputs.
-/
namespace Bladewright

open Bladewright.Host Session

/-- The type of outputs: the usual ones, one named in the code, or a value that the code refers to. -/
inductive OutputType where
  | usual
  | text (source : String)
  | value (v : Value)

namespace OutputType

/-- The name that code has for a type that is given as a value. -/
def boundName : String := "T"

def text? : OutputType → Option String
  | usual => none
  | text source => some source
  | value _ => some boundName

def names : OutputType → List (String × Value)
  | value v => [(boundName, v)]
  | _ => []

end OutputType

/-- A program with all that it is run with. -/
structure Job where
  signature : Datum
  source : Surface.Source
  mode : String
  type : OutputType
  names : List (String × Value)

namespace Job

def style (job : Job) : Code.Style := ⟨job.mode, job.type.text?⟩

def environment (job : Job) : Environment := Environment.extending (job.type.names ++ job.names)

/-- Compiles a program and evaluates its code. -/
def evaluate (job : Job) (table : Table) : Session Value := do
  let compilation ← compile job.signature job.source job.style table
  settle .host (job.environment.evaluate compilation.code)

end Job

/-- A compiled function with the names that it sees. -/
structure Kernel where
  environment : Environment
  function : Value

namespace Kernel

def constantNames : List String := ["None", "True", "False"]

def checkNames (name : String) (args : List String) : Except Fault Unit := do
  if (name :: args).any constantNames.contains then throw (.valueError none)
  if !args.Nodup || args.contains "__debug__" || name == "__debug__" then throw .invalidCode

/-- Compiles a program into a kernel. The kernel is among the names that it sees. -/
def ofJob (job : Job) (args : List String) (name : String) (table : Table) : Session Kernel := do
  let definition ← compileFunction job.signature job.source args name job.style table
  settle .host (checkNames name args)
  match definition.toFunction? with
  | none => throw (.host .invalidCode)
  | some function =>
    let env := job.environment
    return ⟨{ env with globals := (name, function) :: env.globals }, function⟩

def call (kernel : Kernel) (args : List Value) : Except Fault Value :=
  kernel.environment.call kernel.function args

end Kernel

end Bladewright
