import Bladewright.Multivector.Basic

/-!
The layout of a result: every grade that is present with all its components, in the order of the blades, zero for
those that are absent.
-/
namespace Bladewright

/-- An evaluated multivector, cut by grade if it has several. -/
inductive Result where
  | whole (A : Multivector)
  | parts (grades : List (Int × Multivector))
deriving Inhabited

namespace Result

def ofMultivector (A : Multivector) : Result :=
  match A.partition with
  | [] | [_] => whole A
  | several => parts (several.map fun (k, part) => ((k : Int), part))

def text : Result → String
  | whole A => A.text
  | parts grades => "[" ++ ", ".intercalate (grades.map fun (k, A) =>
      "(" ++ toString k ++ ", " ++ A.text ++ ")") ++ "]"

def isWritable : Result → Bool
  | whole A => A.isWritable
  | parts grades => grades.all (·.2.isWritable)

end Result

/-- The grades that are present, each with its components. -/
structure Layout where
  dimension : Nat
  grades : List (Int × List Coeff)
deriving Inhabited

namespace Layout

inductive Error where
  | emptyPartition
  | missingGrade
deriving DecidableEq, Repr

def components (l : Layout) : List Coeff := l.grades.flatMap (·.2)

def count (l : Layout) : Nat := l.components.length

def ofPart : Int × Multivector → Except Error (Int × List Coeff)
  | (k, A) => match A.checkedComponents k with
    | .ok cs => return (k, cs)
    | .error _ => throw .missingGrade

/-- The layout of a multivector; without any blade it is the scalar zero. -/
def ofMultivector (A : Multivector) : Layout :=
  ⟨A.signature.dimension, match A.partition with
    | [] => [(0, [0])]
    | parts => parts.map fun (k, part) => ((k : Int), part.components k)⟩

/-- The layout of a result, of which each part has its own grade. -/
def ofResult : Result → Except Error Layout
  | .whole A => return ofMultivector A
  | .parts [] => throw .emptyPartition
  | .parts (first :: rest) =>
    return ⟨first.2.signature.dimension, ← (first :: rest).mapM ofPart⟩

end Layout

end Bladewright
