import Bladewright.Algebra.Terms
import Bladewright.Blade.Basic

/-!
The Clifford algebra of a signature on terms over any coefficients: sums, the geometric product and the products that
keep some grades of it, involutions, duality and complements.
-/
namespace Bladewright.Terms

open Bladewright.Blade

variable {α : Type}

def add [Add α] (A B : Terms α) : Terms α :=
  B.entries.foldl (fun A e => A.addAt (· + ·) e.1 e.2) A

def neg [Neg α] (A : Terms α) : Terms α := A.map fun _ c => -c

def scale [Mul α] (A : Terms α) (factor : α) : Terms α := A.map fun _ c => c * factor

def gradePart (A : Terms α) (k : Nat) : Terms α := A.filter (grade · == k)

/-- Which pairs of blades a product multiplies. -/
abbrev Selection := Nat → Nat → Bool

/-- All pairs, as for the geometric product. -/
def Selection.all : Selection := fun _ _ => true

/-- Pairs whose product has the difference of the grades as its grade. -/
def Selection.inner : Selection := fun a b =>
  grade (a ^^^ b) == (if grade a ≤ grade b then grade b - grade a else grade a - grade b)

/-- Pairs whose product lowers the grade of the right factor by that of the left. -/
def Selection.left : Selection := fun a b =>
  grade a ≤ grade b && grade (a ^^^ b) == grade b - grade a

/-- Pairs whose product lowers the grade of the left factor by that of the right. -/
def Selection.right : Selection := fun a b =>
  grade b ≤ grade a && grade (a ^^^ b) == grade a - grade b

/-- Pairs whose product is a scalar. -/
def Selection.scalar : Selection := fun a b => grade a == grade b && grade (a ^^^ b) == 0

/-- A product with a sign, which the left factor takes. -/
def signedMul [Mul α] [Neg α] (sign : Int) (a b : α) : α := if sign < 0 then -a * b else a * b

/-- Adds the products of a term on the left with selected terms on the right. -/
def multiplyTerm [Add α] [Mul α] [Neg α] (s : Signature) (select : Selection) (a : Nat) (ca : α)
    (B : List (Nat × α)) (acc : Terms α) : Terms α :=
  B.foldl (fun acc (b, cb) =>
    if select a b then
      let sign := productSign s a b
      if sign = 0 then acc else acc.addAt (· + ·) (a ^^^ b) (signedMul sign ca cb)
    else acc) acc

/-- The product of the selected pairs of terms. A pair that squares a degenerate basis vector
contributes nothing. -/
def multiply [Add α] [Mul α] [Neg α] (s : Signature) (select : Selection) (A B : Terms α) : Terms α :=
  A.entries.foldl (fun acc (a, ca) => multiplyTerm s select a ca B.entries acc) empty

/-! ### The outer product -/

/-- Adds the products of a term with the terms that share no basis vector with it. -/
def wedgeTerm [Add α] [Mul α] [Neg α] (a : Nat) (ca : α) (B : List (Nat × α)) (acc : Terms α) : Terms α :=
  B.foldl (fun acc (b, cb) =>
    if a &&& b = 0 then acc.addAt (· + ·) (a ^^^ b) (signedMul (reorderingSign a b) ca cb) else acc) acc

/-- The outer product: the product of the pairs without a common basis vector. The metric plays no part in it. -/
def outerProduct [Add α] [Mul α] [Neg α] (_ : Signature) (A B : Terms α) : Terms α :=
  A.entries.foldl (fun acc (a, ca) => wedgeTerm a ca B.entries acc) empty

/-- Pairs without a common basis vector, which the outer product keeps of the geometric one. -/
def Selection.disjoint : Selection := fun a b => a &&& b == 0

theorem wedgeTerm_eq_multiplyTerm [Add α] [Mul α] [Neg α] (s : Signature) (a : Nat) (ca : α) (B : List (Nat × α))
    (acc : Terms α) : wedgeTerm a ca B acc = multiplyTerm s .disjoint a ca B acc := by
  unfold wedgeTerm multiplyTerm
  congr 1
  funext acc ⟨b, cb⟩
  by_cases apart : a &&& b = 0
  · have sign : productSign s a b = reorderingSign a b := by
      rw [productSign, apart]
      exact Int.mul_one _
    have nonzero : reorderingSign a b ≠ 0 := by
      unfold reorderingSign
      split <;> decide
    simp [Selection.disjoint, apart, sign, nonzero]
  · simp [Selection.disjoint, apart]

/-- In every metric the outer product is what the geometric product has of the pairs without a common basis vector. -/
theorem outerProduct_eq_multiply [Add α] [Mul α] [Neg α] (s : Signature) (A B : Terms α) :
    A.outerProduct s B = multiply s .disjoint A B := by
  unfold outerProduct multiply
  congr 1
  funext acc ⟨a, ca⟩
  exact wedgeTerm_eq_multiplyTerm s a ca B.entries acc

section

variable [Add α] [Mul α] [Neg α] (s : Signature) (A B : Terms α)

def geometricProduct : Terms α := multiply s .all A B

/-- The inner product: of each pair of grades, the part of the grade of their difference. -/
def innerProduct : Terms α := multiply s .inner A B

/-- The part that lowers the grade of the right factor by that of the left. -/
def leftContraction : Terms α := multiply s .left A B

/-- The part that lowers the grade of the left factor by that of the right. -/
def rightContraction : Terms α := multiply s .right A B

/-- The scalar part of the geometric product. -/
def scalarProduct : Terms α := multiply s .scalar A B

end

def signed [Neg α] (sign : Int) (c : α) : α := if 0 < sign then c else -c

/-- Reverses the order of the basis vectors in each blade. -/
def reverse [Neg α] (A : Terms α) : Terms α := A.map fun b c => signed (reverseSign (grade b)) c

/-- Negates the odd grades. -/
def involute [Neg α] (A : Terms α) : Terms α := A.map fun b c => signed (involutionSign (grade b)) c

/-- The blade of all basis vectors. -/
def fullBlade (s : Signature) : Nat := s.size - 1

def pseudoscalar [OfNat α 1] (s : Signature) : Terms α := single (fullBlade s) 1

/-- The product with the pseudoscalar on the right. -/
def dual [Add α] [Mul α] [Neg α] [OfNat α 1] (s : Signature) (A : Terms α) : Terms α :=
  geometricProduct s A (pseudoscalar s)

/-- The complement that makes every blade times its complement, on the right, the pseudoscalar. -/
def rightComplement [Neg α] (s : Signature) (A : Terms α) : Terms α :=
  A.complement (fullBlade s) fun b c => signed (reorderingSign b (fullBlade s ^^^ b)) c

/-- The complement that makes the complement times every blade, on its right, the pseudoscalar. -/
def leftComplement [Neg α] (s : Signature) (A : Terms α) : Terms α :=
  A.complement (fullBlade s) fun b c => signed (reorderingSign (fullBlade s ^^^ b) b) c

/-- The first basis vector beyond the signature that a product would have to square. -/
def beyond? (s : Signature) (select : Selection) (A B : Terms α) : Option Nat :=
  A.blades.findSome? fun a => B.blades.findSome? fun b =>
    if select a b then Blade.beyond? s (a &&& b) else none

end Bladewright.Terms
