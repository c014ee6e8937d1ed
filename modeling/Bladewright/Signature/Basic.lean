/-!
Metric signatures `Cl(p, q, r)`: `p` basis vectors that square to one, then `q` that square to minus one, then `r`
that square to zero. Distinct basis vectors anticommute.
-/
namespace Bladewright

/-- How many basis vectors square to one, to minus one and to zero. -/
structure Signature where
  positive : Nat
  negative : Nat
  degenerate : Nat
deriving DecidableEq, Repr, Inhabited

namespace Signature

def dimension (s : Signature) : Nat := s.positive + s.negative + s.degenerate

def isDegenerate (s : Signature) : Bool := 0 < s.degenerate

def size (s : Signature) : Nat := Nat.pow 2 s.dimension

def square (s : Signature) (i : Nat) : Int :=
  if i < s.positive then 1 else if i < s.positive + s.negative then -1 else 0

def square? (s : Signature) : Int → Option Int
  | .ofNat i => if i < s.dimension then some (s.square i) else none
  | .negSucc _ => none

def text (s : Signature) : String :=
  "Cl(" ++ toString s.positive ++ "," ++ toString s.negative ++ "," ++ toString s.degenerate ++ ")"

end Signature

end Bladewright
