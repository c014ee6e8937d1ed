import Bladewright.Proofs.Algebra.GradeParts
import Bladewright.Proofs.Algebra.Involutions

/-!
Products of three factors, and the contractions.
-/
namespace Bladewright

namespace Blade

/-! ### Three blades -/

theorem and_eq_left_iff_testBit {a b : Nat} : a &&& b = a ↔ ∀ i, (a.testBit i && b.testBit i) = a.testBit i := by
  constructor
  · intro inside i
    rw [← Nat.testBit_and, inside]
  · intro inside
    exact Nat.eq_of_testBit_eq fun i => by rw [Nat.testBit_and, inside i]

theorem contained_left (a b c : Nat) :
    a &&& b = 0 ∧ (a ^^^ b) &&& c = a ^^^ b ↔ b &&& c = b ∧ a &&& (b ^^^ c) = a := by
  simp only [eq_zero_iff_testBit, and_eq_left_iff_testBit, Nat.testBit_and, Nat.testBit_xor, ← forall_and]
  refine forall_congr' fun i => ?_
  cases a.testBit i <;> cases b.testBit i <;> cases c.testBit i <;> simp

theorem contained_right (a b c : Nat) :
    b &&& a = b ∧ c &&& (a ^^^ b) = c ↔ b &&& c = 0 ∧ (b ^^^ c) &&& a = b ^^^ c := by
  rw [Nat.xor_comm a b, Nat.xor_comm b c, Nat.and_comm b c]
  exact (contained_left c b a).symm

theorem contained_both (a b c : Nat) :
    a &&& b = a ∧ c &&& (a ^^^ b) = c ↔ c &&& b = c ∧ a &&& (b ^^^ c) = a := by
  simp only [and_eq_left_iff_testBit, Nat.testBit_xor, ← forall_and]
  refine forall_congr' fun i => ?_
  cases a.testBit i <;> cases b.testBit i <;> cases c.testBit i <;> simp

theorem productSign_assoc_ne_zero (s : Signature) (a b c : Nat) :
    productSign s a b ≠ 0 ∧ productSign s (a ^^^ b) c ≠ 0 ↔ productSign s b c ≠ 0 ∧ productSign s a (b ^^^ c) ≠ 0 := by
  rw [← mul_ne_zero_iff, productSign_cocycle, mul_ne_zero_iff]

end Blade

namespace Terms

open Blade

/-! ### Which pairs are contracted -/

theorem left_iff (a b : Nat) : Selection.left a b = true ↔ a &&& b = a := by
  have lost := grade_xor a b
  have shared := grade_and_le a b
  simp only [Selection.left, Bool.and_eq_true, decide_eq_true_eq, beq_iff_eq, and_eq_left_iff]
  omega

theorem right_iff (a b : Nat) : Selection.right a b = true ↔ b &&& a = b := by
  have lost := grade_xor a b
  have shared := grade_and_le a b
  rw [and_eq_left_iff, Nat.and_comm b a]
  simp only [Selection.right, Bool.and_eq_true, decide_eq_true_eq, beq_iff_eq]
  omega

theorem disjoint_iff (a b : Nat) : Selection.disjoint a b = true ↔ a &&& b = 0 := beq_iff_eq

theorem left_flip (a b : Nat) : Selection.left a b = Selection.right b a := by
  rw [Bool.eq_iff_iff, left_iff, right_iff]

/-! ### Three factors -/

variable {α : Type} [CommRing α] (s : Signature)

/-- Two selections on the left take the same triples of blades as two on the right. -/
def SameTriples (inner outer inner' outer' : Selection) : Prop :=
  ∀ a b c, inner a b = true ∧ outer (a ^^^ b) c = true ↔ inner' b c = true ∧ outer' a (b ^^^ c) = true

theorem sameTriples_disjoint : SameTriples .disjoint .disjoint .disjoint .disjoint := by
  intro a b c
  simp only [disjoint_iff]
  exact disjoint_assoc a b c

theorem sameTriples_left : SameTriples .disjoint .left .left .left := by
  intro a b c
  simp only [disjoint_iff, left_iff]
  exact contained_left a b c

theorem sameTriples_right : SameTriples .right .right .disjoint .right := by
  intro a b c
  simp only [disjoint_iff, right_iff]
  exact contained_right a b c

theorem sameTriples_both : SameTriples .left .right .right .left := by
  intro a b c
  simp only [left_iff, right_iff]
  exact contained_both a b c

section

variable {inner outer inner' outer' : Selection} (agree : SameTriples inner outer inner' outer')
include agree

theorem convolve_weight_assoc (X Y Z : Nat →₀ α) :
    convolve (weight s outer) (convolve (weight s inner) X Y) Z =
      convolve (weight s outer') X (convolve (weight s inner') Y Z) := by
  refine convolve_convolve (fun a b c => ?_) X Y Z
  simp only [weight, ite_zero_mul_ite_zero, agree a b c, productSign_cocycle]

/-- Three factors can be multiplied from either side if the selections take the same triples of blades. -/
theorem multiply_assoc (A B C : Terms α) :
    (multiply s outer (multiply s inner A B) C).Same (multiply s outer' A (multiply s inner' B C)) := by
  refine same_iff.mpr ⟨fun blade => ?_, ?_⟩
  · simp only [mem_blades_multiply]
    constructor
    · rintro ⟨_, ⟨a, left, b, middle, selected, nonzero, rfl⟩, c, right, selected', nonzero', rfl⟩
      obtain ⟨selected, selected'⟩ := (agree a b c).mp ⟨selected, selected'⟩
      obtain ⟨nonzero, nonzero'⟩ := (productSign_assoc_ne_zero s a b c).mp ⟨nonzero, nonzero'⟩
      exact ⟨a, left, _, ⟨b, middle, c, right, selected, nonzero, rfl⟩, selected', nonzero', (Nat.xor_assoc a b c).symm⟩
    · rintro ⟨a, left, _, ⟨b, middle, c, right, selected, nonzero, rfl⟩, selected', nonzero', rfl⟩
      obtain ⟨selected, selected'⟩ := (agree a b c).mpr ⟨selected, selected'⟩
      obtain ⟨nonzero, nonzero'⟩ := (productSign_assoc_ne_zero s a b c).mpr ⟨nonzero, nonzero'⟩
      exact ⟨_, ⟨a, left, b, middle, selected, nonzero, rfl⟩, c, right, selected', nonzero', Nat.xor_assoc a b c⟩
  · simp only [combination_multiply]
    exact convolve_weight_assoc s agree _ _ _

end

theorem outerProduct_assoc (A B C : Terms α) :
    ((A.outerProduct s B).outerProduct s C).Same (A.outerProduct s (B.outerProduct s C)) := by
  simp only [outerProduct_eq_multiply]
  exact multiply_assoc s sameTriples_disjoint A B C

/-- The laws of the contractions, in every signature and over every commutative ring: contraction by an outer product is
contraction by its factors one after the other, on both sides; contractions from the two sides can be taken in either
order; and the reverse exchanges the two contractions. Both sides have the same blades, so also the same blades with
coefficient zero. -/
theorem contraction_laws (A B C : Terms α) :
    ((A.outerProduct s B).leftContraction s C).Same (A.leftContraction s (B.leftContraction s C)) ∧
    ((C.rightContraction s A).rightContraction s B).Same (C.rightContraction s (A.outerProduct s B)) ∧
    ((A.leftContraction s B).rightContraction s C).Same (A.leftContraction s (B.rightContraction s C)) ∧
    (A.leftContraction s B).reverse.Same (B.reverse.rightContraction s A.reverse) := by
  rw [outerProduct_eq_multiply]
  exact ⟨multiply_assoc s sameTriples_left A B C, multiply_assoc s sameTriples_right C A B,
    multiply_assoc s sameTriples_both A B C, reverse_multiply s left_flip A B⟩

end Terms

end Bladewright
