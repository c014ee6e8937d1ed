import Bladewright.Algebra.Product
import Bladewright.Blade.Name
import Bladewright.Coeff.Arithmetic
import Bladewright.Coeff.Text

/-!
Multivectors with symbolic coefficients in the algebra of a signature, and the arithmetic on them that checks its
operands.
-/
namespace Bladewright

open Bladewright.Blade

/-- Terms in the algebra of a signature. -/
structure Multivector where
  signature : Signature
  terms : Terms Coeff
deriving Inhabited

namespace Multivector

def scalar (s : Signature) (c : Coeff) : Multivector := ⟨s, .single 0 c⟩

/-- A product of basis vectors times a coefficient: nothing at all if a degenerate basis vector is
squared. -/
def ofBlade (s : Signature) (blade : Nat) (sign : Int) (c : Coeff) : Multivector :=
  if sign = 0 then ⟨s, .empty⟩ else ⟨s, .single blade (Coeff.mul (.ofInt sign) c)⟩

/-- The grades that are present, ascending. -/
def grades (A : Multivector) : List Nat :=
  ((A.terms.blades.map grade).eraseDups).mergeSort (· ≤ ·)

def gradePart (A : Multivector) (k : Nat) : Multivector := ⟨A.signature, A.terms.gradePart k⟩

/-- The coefficients of all blades of a grade. -/
def components (A : Multivector) (k : Nat) : List Coeff :=
  (ofGrade A.signature.dimension k).map A.terms.coeff

/-- The parts by grade. -/
def partition (A : Multivector) : List (Nat × Multivector) :=
  A.grades.map fun k => (k, A.gradePart k)

def isZero (A : Multivector) : Bool := A.terms.coefficients.all Coeff.isZero

/-- Whether every coefficient but the scalar one is zero. -/
def isScalar (A : Multivector) : Bool := A.terms.entries.all fun (b, c) => b == 0 || c.isZero

def scalarPart (A : Multivector) : Coeff := A.terms.coeff 0

def sortedTerms (A : Multivector) : List (Nat × Coeff) :=
  A.terms.entries.mergeSort fun a b => before a.1 b.1

def termText : Nat × Coeff → String
  | (0, c) => "(" ++ c.listedText ++ ")"
  | (b, c) => "(" ++ c.listedText ++ ")*" ++ name b

def text (A : Multivector) : String :=
  let body := if A.terms.entries.isEmpty then "0" else " + ".intercalate (A.sortedTerms.map termText)
  "Multivector(" ++ body ++ ", " ++ A.signature.text ++ ")"

def isWritable (A : Multivector) : Bool := A.terms.coefficients.all Coeff.isWritable

inductive Error where
  | signaturesDiffer (left right : Signature)
  | index (cause : IndexError)
  | missingGrade
  | unsupported

def Error.message? : Error → Option String
  | .signaturesDiffer left right =>
    some ("Signatures must match: " ++ left.text ++ " vs " ++ right.text)
  | .index cause => cause.message?
  | .missingGrade | .unsupported => none

def basis (s : Signature) (factors : List Int) (c : Coeff) : Except IndexError Multivector := do
  let (blade, sign) ← canonicalize (some s) factors
  return ofBlade s blade sign c

/-- The product of selected pairs of terms, where every shared basis vector has to exist. -/
def checkedMultiply (select : Terms.Selection) (A B : Multivector) : Except Error Multivector :=
  match Terms.beyond? A.signature select A.terms B.terms with
  | some i => throw (.index (.outOfRange i A.signature))
  | none => return ⟨A.signature, A.terms.multiply A.signature select B.terms⟩

def checkedReverse (A : Multivector) : Except Error Multivector :=
  if A.terms.blades.any fun b => A.signature.dimension < grade b then throw .missingGrade
  else return ⟨A.signature, A.terms.reverse⟩

def add (A B : Multivector) : Multivector := ⟨A.signature, A.terms.add B.terms⟩

def neg (A : Multivector) : Multivector := ⟨A.signature, A.terms.neg⟩

def scale (A : Multivector) (c : Coeff) : Multivector := ⟨A.signature, A.terms.scale c⟩

/-- Whether the coefficients are equal when they are expanded. -/
def agrees (A B : Multivector) : Bool :=
  (A.terms.blades ++ B.terms.blades).all fun b => Coeff.agrees (A.terms.coeff b) (B.terms.coeff b)

end Multivector

/-- What stands beside an operator: a multivector, a number, a symbolic coefficient, or something
that takes part in no operation. -/
inductive Operand where
  | multivector (A : Multivector)
  | number (c : Coeff)
  | symbolic (c : Coeff)
  | other

inductive Operator where
  | add
  | sub
  | geometric
  | outer
  | inner
  | left
  | right
deriving DecidableEq, Repr

namespace Multivector

/-- An operand in the algebra of a signature. -/
def lift (s : Signature) : Operand → Except Error Multivector
  | .multivector B => if s = B.signature then return B else throw (.signaturesDiffer s B.signature)
  | .number c | .symbolic c => return scalar s c
  | .other => throw .unsupported

/-- An operator between multivectors of one signature. -/
def combine (op : Operator) (A B : Multivector) : Except Error Multivector :=
  match op with
  | .add => return A.add B
  | .sub => return A.add B.neg
  | .geometric => checkedMultiply .all A B
  | .outer => return ⟨A.signature, A.terms.outerProduct A.signature B.terms⟩
  | .inner => checkedMultiply .inner A B
  | .left => checkedMultiply .left A B
  | .right => checkedMultiply .right A B

/-- An operator between two operands, of which at least one is a multivector. Only sums and geometric
products take a number or coefficient on the left. -/
def operate (op : Operator) : Operand → Operand → Except Error Multivector
  | .multivector A, b => do combine op A (← lift A.signature b)
  | a, .multivector B => match op with
    | .add => do combine op B (← lift B.signature a)
    | .geometric => do combine op (← lift B.signature a) B
    | _ => throw .unsupported
  | _, _ => throw .unsupported

/-- Whether two operands are equal, of which at least one is a multivector. A symbolic coefficient on
the left equals no multivector. -/
def equal : Operand → Operand → Except Error Bool
  | .multivector _, .other | .other, .multivector _ => return false
  | .multivector A, b => return agrees A (← lift A.signature b)
  | .number c, .multivector B => return agrees B (scalar B.signature c)
  | _, _ => return false

/-- The components of a grade; a negative one counts from the highest. -/
def checkedComponents (A : Multivector) (k : Int) : Except Error (List Coeff) :=
  let count : Int := A.signature.dimension + 1
  let k := if k < 0 then k + count else k
  if 0 ≤ k && k < count then return A.components k.toNat else throw .missingGrade

end Multivector

end Bladewright
