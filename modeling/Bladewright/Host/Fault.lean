/-!
What can go wrong when host code runs.
-/
namespace Bladewright.Host

/-- A fault of running code. Some values reported with a fault have a message of their own. -/
inductive Fault where
  | typeError
  | valueError (message : Option String)
  | indexError
  | keyError
  | attributeError
  | nameError
  | unboundLocal
  | zeroDivision
  | overflow
  | runtimeError
  | recursion
  | assertion (message : String)
  | invalidCode
deriving DecidableEq, Repr, Inhabited

def Fault.name : Fault → String
  | .typeError => "TypeError"
  | .valueError _ => "ValueError"
  | .indexError => "IndexError"
  | .keyError => "KeyError"
  | .attributeError => "AttributeError"
  | .nameError => "NameError"
  | .unboundLocal => "UnboundLocalError"
  | .zeroDivision => "ZeroDivisionError"
  | .overflow => "OverflowError"
  | .runtimeError => "RuntimeError"
  | .recursion => "RecursionError"
  | .assertion _ => "AssertionError"
  | .invalidCode => "SyntaxError"

def Fault.message? : Fault → Option String
  | .valueError message => message
  | .assertion message => some message
  | _ => none

end Bladewright.Host
