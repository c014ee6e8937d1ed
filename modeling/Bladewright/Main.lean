import Bladewright.Configuration.Assignment
import Bladewright.Log

/-!
The command line: compiles the program of a configuration, given by assignments such as `signature=[3,0,1]`, and logs
the code.
-/
namespace Bladewright

def commandName : String := "main"

def runRecords (made : Configuration.Product) : List Log.Record :=
  [⟨Log.info, commandName, "Compiled under " ++ made.signature.text ++ " (" ++ made.mode ++ ")"⟩,
   ⟨Log.info, commandName, "\n" ++ made.source⟩]

def runReport (texts : List String) : String × Bool :=
  match Configuration.ofAssignments texts with
  | .error text => ("Not an assignment: " ++ text ++ "\n", false)
  | .ok c => match c.run.outcome with
    | (.error failure, _) => ((failure.message?.getD "Failed") ++ "\n", false)
    | (.ok made, _) => (Log.written Log.info false (runRecords made), true)

end Bladewright

def main (args : List String) : IO UInt32 := do
  let (text, succeeded) := Bladewright.runReport args
  IO.eprint text
  return if succeeded then 0 else 1
