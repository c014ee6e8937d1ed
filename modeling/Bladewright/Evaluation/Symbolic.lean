import Bladewright.Evaluation
import Bladewright.Multivector.Basic

/-!
Evaluation with symbolic coefficients: host expressions are symbols named by their source, components of typed inputs
are reads of such symbols.
-/
namespace Bladewright.Evaluation

/-- The function that reads a component of a host value. -/
def reader : String := "getcomponent"

def componentRead (source : String) : Option Nat → Coeff
  | none => .app reader [.sym source]
  | some i => .app reader [.sym source, .ofInt i]

/-- Coefficients that are expressions in the host inputs. -/
def symbolic : Engine Coeff where
  number := .num
  input := .sym
  component := componentRead
  isZero := Coeff.isZero
  normal := Coeff.expand
  inverse := Coeff.inv

def Slot.text : Slot → String
  | .grade => "Grade projection"
  | .exponent => "Exponent"

def Error.message? : Error Coeff → Option String
  | .missingBasis factors index s =>
    some ("Basis blade " ++ (Tree.blade factors).text ++ " needs " ++ toString (index + 1)
      ++ " dimensions, " ++ s.text ++ " has " ++ toString s.dimension)
  | .negativeBasis => none
  | .missingGrades spec grades s =>
    some ("Annotation " ++ spec.text ++ " selects grade(s) [" ++ ", ".intercalate (grades.map toString)
      ++ "] outside " ++ s.text)
  | .notScalar divisor s =>
    let A := Multivector.mk s divisor
    if A.isWritable then some ("Division by a non-scalar: " ++ A.text) else none
  | .zeroDivisor => some "Division by zero"
  | .notInteger slot tree => some (slot.text ++ " must be an integer literal, got " ++ tree.text)
  | .wrongOperands op count =>
    some (op.name ++ " expects " ++ toString op.arity ++ " operand(s), got " ++ toString count)
  | .unexpanded tree => some ("Unexpanded node " ++ tree.text ++ " reached the algebra engine")
  | .unknownNode tree => some ("Unknown expression node " ++ tree.text)

def evaluateMultivector (s : Signature) (tree : Tree) : Except (Error Coeff) Multivector :=
  return ⟨s, ← evaluate symbolic s tree⟩

end Bladewright.Evaluation
