import Bladewright.Proofs.Compilation.Outcomes
import Bladewright.Proofs.Host.Names
import Bladewright.Proofs.Host.Unread
import Bladewright.Proofs.Host.Writable

/-!
An output type that is given as a value. The code of a program refers to such a type by a name, and with all
components in one object it is a call that builds the object from the tuple that the code without a type is.
-/
namespace Bladewright

open List Host Outcome Session OutputType Environment

/-! ### Code with a type -/

namespace Host.Expr

end Host.Expr

namespace Code

def elements (result : Result) : Except Error (List Expr) := do
  emitAll (← (Layout.ofResult result).mapError .layout).components

end Code

namespace OutputType

end OutputType

namespace Host.Environment

/-- What code gives that builds an object of a type from components: a call of the function that it sees as the one
that builds objects. -/
def build (env : Environment) (type components : Value) : Except Fault Value := do
  let f ← env.lookup [] "construct"
  env.call f [type, components]

end Host.Environment

end Bladewright
