import Bladewright.Proofs.Algebra.Combination

/-!
The geometric product as the product of a ring.
-/
namespace Bladewright.Terms

open Bladewright.Blade

variable {α : Type} [CommRing α] (s : Signature)

@[simp] theorem weight_all : weight s .all = productSign s := by
  funext a b
  simp [weight, Selection.all]

@[simp] theorem combination_geometricProduct (A B : Terms α) :
    (A.geometricProduct s B).combination
      = convolve (productSign s) A.combination B.combination := by
  rw [geometricProduct, combination_multiply, weight_all]

theorem convolve_productSign_assoc (X Y Z : Nat →₀ α) :
    convolve (productSign s) (convolve (productSign s) X Y) Z
      = convolve (productSign s) X (convolve (productSign s) Y Z) :=
  convolve_convolve (productSign_cocycle s) X Y Z

theorem convolve_one_left (Y : Nat →₀ α) :
    convolve (productSign s) (Finsupp.single 0 1) Y = Y := by
  induction Y using Finsupp.induction_linear with
  | zero => simp
  | add Y Y' ih ih' => rw [convolve_add_right, ih, ih']
  | single b y => simp

theorem convolve_one_right (X : Nat →₀ α) :
    convolve (productSign s) X (Finsupp.single 0 1) = X := by
  induction X using Finsupp.induction_linear with
  | zero => simp
  | add X X' ih ih' => rw [convolve_add_left, ih, ih']
  | single a x => simp

/-- The geometric product is associative, distributes over sums on both sides, and has the scalar one
as its unit on both sides. Blades beyond the dimension make no exception, so none are excluded. -/
theorem geometricProduct_ring_laws (A B C : Terms α) :
    ((A.geometricProduct s B).geometricProduct s C).Agrees
      (A.geometricProduct s (B.geometricProduct s C)) ∧
    (A.geometricProduct s (B.add C)).Agrees
      ((A.geometricProduct s B).add (A.geometricProduct s C)) ∧
    ((A.add B).geometricProduct s C).Agrees
      ((A.geometricProduct s C).add (B.geometricProduct s C)) ∧
    ((single 0 1).geometricProduct s A).Agrees A ∧
    (A.geometricProduct s (single 0 1)).Agrees A := by
  simp only [agrees_iff, combination_geometricProduct, combination_add, combination_single]
  exact ⟨convolve_productSign_assoc s _ _ _, convolve_add_right _ _ _ _, convolve_add_left _ _ _ _,
    convolve_one_left s _, convolve_one_right s _⟩

end Bladewright.Terms
