import Bladewright.Proofs.Blade.Enumeration

/-!
The grade of the product of two blades.
-/
namespace Bladewright.Blade

theorem support_and (a b : Nat) : support (a &&& b) = support a ∩ support b := by
  ext i
  simp

theorem support_xor (a b : Nat) : support (a ^^^ b) = support a \ support b ∪ support b \ support a := by
  ext i
  simp only [mem_support, Nat.testBit_xor, Finset.mem_union, Finset.mem_sdiff]
  cases a.testBit i <;> cases b.testBit i <;> simp

theorem grade_xor (a b : Nat) : grade (a ^^^ b) + 2 * grade (a &&& b) = grade a + grade b := by
  have apart : Disjoint (support a \ support b) (support b \ support a) := disjoint_sdiff_sdiff
  have left := Finset.card_sdiff_add_card_inter (support a) (support b)
  have right := Finset.card_sdiff_add_card_inter (support b) (support a)
  rw [Finset.inter_comm] at right
  simp only [← card_support, support_xor, support_and, Finset.card_union_of_disjoint apart]
  omega

theorem grade_and_le (a b : Nat) : grade (a &&& b) ≤ grade a ∧ grade (a &&& b) ≤ grade b := by
  simp only [← card_support, support_and]
  exact ⟨Finset.card_le_card Finset.inter_subset_left, Finset.card_le_card Finset.inter_subset_right⟩

theorem grade_xor_bounds (a b : Nat) :
    ((grade a : ℤ) - grade b).natAbs ≤ grade (a ^^^ b) ∧ grade (a ^^^ b) ≤ grade a + grade b ∧
      grade (a ^^^ b) % 2 = (grade a + grade b) % 2 := by
  have lost := grade_xor a b
  have shared := grade_and_le a b
  omega

theorem and_eq_zero_iff (a b : Nat) : a &&& b = 0 ↔ grade (a ^^^ b) = grade a + grade b := by
  have lost := grade_xor a b
  constructor
  · intro apart
    have zero : grade (a &&& b) = 0 := by rw [apart]; rfl
    omega
  · intro kept
    exact eq_zero_of_grade (by omega)

theorem and_eq_left_iff (a b : Nat) : a &&& b = a ↔ grade (a &&& b) = grade a := by
  constructor
  · intro inside
    rw [inside]
  · intro all
    have same : support (a &&& b) = support a := by
      refine Finset.eq_of_subset_of_card_le ?_ ?_
      · rw [support_and]
        exact Finset.inter_subset_left
      · rw [card_support, card_support, all]
    refine Nat.eq_of_testBit_eq fun i => Bool.eq_iff_iff.mpr ?_
    rw [← mem_support, same, mem_support]

end Bladewright.Blade
