import Bladewright.Proofs.Algebra.Coefficients
import Bladewright.Proofs.Algebra.GeometricProduct
import Bladewright.Proofs.Algebra.Within
import Bladewright.Proofs.Blade.Grade
import Mathlib.Order.Interval.Finset.Nat

/-!
The derived products by grade. Cutting factors and product by grade only drops pairs of blades from the weight of a
product (`combination_productPart`), and products add up with their weights (`convolve_sum_weight`).
-/
namespace Bladewright

open Finsupp

variable {α : Type} [CommRing α]

/-! ### Weights -/

theorem convolve_congr {w w' : Nat → Nat → Int} {X Y : Nat →₀ α}
    (agree : ∀ a ∈ X.support, ∀ b ∈ Y.support, w a b = w' a b) : convolve w X Y = convolve w' X Y := by
  refine sum_congr fun a present => sum_congr fun b present' => ?_
  rw [agree a present b present']

theorem convolve_add_weight (w w' : Nat → Nat → Int) (X Y : Nat →₀ α) :
    convolve (fun a b => w a b + w' a b) X Y = convolve w X Y + convolve w' X Y := by
  simp only [convolve, add_smul, single_add, sum_add]

theorem convolve_sum_weight {ι : Type} (parts : Finset ι) (w : ι → Nat → Nat → Int) (X Y : Nat →₀ α) :
    convolve (fun a b => ∑ i ∈ parts, w i a b) X Y = ∑ i ∈ parts, convolve (w i) X Y := by
  classical
  induction parts using Finset.induction_on with
  | empty => simp [convolve]
  | insert i parts new ih => simp only [Finset.sum_insert new, convolve_add_weight, ih]

section

variable (p q : Nat → Prop) [DecidablePred p] [DecidablePred q] (w : Nat → Nat → Int) (X Y : Nat →₀ α)

theorem filter_convolve :
    (convolve w X Y).filter p = convolve (fun a b => if p (a ^^^ b) then w a b else 0) X Y := by
  induction X using induction_linear with
  | zero => simp [filter_zero]
  | add X X' ih ih' => simp only [filter_add, convolve_add_left, ih, ih']
  | single a x =>
    induction Y using induction_linear with
    | zero => simp [filter_zero]
    | add Y Y' ih ih' => simp only [filter_add, convolve_add_right, ih, ih']
    | single b y =>
      by_cases taken : p (a ^^^ b)
      · rw [convolve_single, convolve_single, if_pos taken, filter_single_of_pos _ taken]
      · rw [convolve_single, convolve_single, if_neg taken, filter_single_of_neg _ taken, zero_smul,
          single_zero]

theorem convolve_filter :
    convolve w (X.filter p) (Y.filter q) = convolve (fun a b => if p a ∧ q b then w a b else 0) X Y := by
  induction X using induction_linear with
  | zero => simp [filter_zero]
  | add X X' ih ih' => simp only [filter_add, convolve_add_left, ih, ih']
  | single a x =>
    induction Y using induction_linear with
    | zero => simp [filter_zero]
    | add Y Y' ih ih' => simp only [filter_add, convolve_add_right, ih, ih']
    | single b y =>
      by_cases left : p a
      · by_cases right : q b
        · simp [filter_single_of_pos, left, right]
        · simp [filter_single_of_neg, right]
      · simp [filter_single_of_neg, left]

end

namespace Terms

open Blade

/-! ### Parts of products of parts -/

theorem combination_filter (A : Terms α) (p : Nat → Bool) :
    (A.filter p).combination = A.combination.filter fun blade => p blade = true := by
  change combine (A.entries.filter fun e => p e.1) = _
  unfold combination
  induction A.entries with
  | nil => exact (filter_zero _).symm
  | cons e rest ih =>
    rw [List.filter_cons]
    split
    · rename_i taken
      rw [combine_cons, combine_cons, filter_add, ih, filter_single_of_pos (p · = true) taken]
    · rename_i left
      rw [combine_cons, filter_add, ih, filter_single_of_neg (p · = true) left, zero_add]

theorem combination_gradePart (A : Terms α) (k : Nat) :
    (A.gradePart k).combination = A.combination.filter fun blade => grade blade = k := by
  rw [gradePart, combination_filter]
  congr 1
  simp

theorem mem_blades_of_support {A : Terms α} {blade : Nat} (present : blade ∈ A.combination.support) :
    blade ∈ A.blades := by
  by_contra absent
  rw [mem_support_iff, combination_apply] at present
  exact present (coeff_eq_zero absent)

def productPart (s : Signature) (A B : Terms α) (g h k : Nat) : Terms α :=
  ((A.gradePart g).geometricProduct s (B.gradePart h)).gradePart k

variable (s : Signature)

theorem combination_productPart (A B : Terms α) (g h k : Nat) :
    (productPart s A B g h k).combination =
      convolve (fun a b => if grade a = g ∧ grade b = h ∧ grade (a ^^^ b) = k then productSign s a b else 0)
        A.combination B.combination := by
  rw [productPart, combination_gradePart, combination_geometricProduct, filter_convolve, combination_gradePart,
    combination_gradePart, convolve_filter]
  refine convolve_congr fun a _ b _ => ?_
  simp only [← ite_and, and_assoc]

theorem sum_productPart (A B : Terms α) (G : Finset Nat) (H : Nat → Finset Nat) (k : Nat → Nat → Nat) :
    ∑ g ∈ G, ∑ h ∈ H g, (productPart s A B g h (k g h)).combination =
      convolve (fun a b => if grade a ∈ G ∧ grade b ∈ H (grade a) ∧ grade (a ^^^ b) = k (grade a) (grade b)
        then productSign s a b else 0) A.combination B.combination := by
  simp only [combination_productPart, ← convolve_sum_weight]
  refine convolve_congr fun a _ b _ => ?_
  have row (g : Nat) :
      (∑ h ∈ H g, if grade a = g ∧ grade b = h ∧ grade (a ^^^ b) = k g h then productSign s a b else 0) =
        if grade a = g then (if grade b ∈ H g ∧ grade (a ^^^ b) = k g (grade b) then productSign s a b else 0)
        else 0 := by
    by_cases same : grade a = g
    · simp [same, ite_and, Finset.sum_ite_eq]
    · simp [same]
  rw [Finset.sum_congr rfl fun g _ => row g, Finset.sum_ite_eq, ← ite_and]

/-- A product of selected pairs is a sum of parts of products of parts, if the grades of two blades and of their
product tell whether the pair is selected. -/
theorem coeff_multiply_parts {A B : Terms α} (left : A.Within s.dimension) (right : B.Within s.dimension)
    {select : Selection} {H : Nat → Finset Nat} {k : Nat → Nat → Nat}
    (selected : ∀ a b, grade a ≤ s.dimension → grade b ≤ s.dimension →
      (select a b = true ↔ grade b ∈ H (grade a) ∧ grade (a ^^^ b) = k (grade a) (grade b))) (blade : Nat) :
    (multiply s select A B).coeff blade =
      ∑ g ∈ Finset.range (s.dimension + 1), ∑ h ∈ H g, (productPart s A B g h (k g h)).coeff blade := by
  simp only [← combination_apply, ← finsetSum_apply, sum_productPart, combination_multiply]
  congr 1
  refine convolve_congr fun a present b present' => ?_
  have gradeA := grade_le (left a (mem_blades_of_support present))
  have gradeB := grade_le (right b (mem_blades_of_support present'))
  have inside : grade a ∈ Finset.range (s.dimension + 1) := Finset.mem_range.mpr (by omega)
  simp only [weight, selected a b gradeA gradeB, inside, true_and]

/-- The part of a product of parts is empty unless its grade lies between the difference and the sum of the two
grades and has the parity of the sum. -/
theorem productPart_eq_empty (A B : Terms α) {g h k : Nat}
    (outside : ¬ (((g : ℤ) - h).natAbs ≤ k ∧ k ≤ g + h ∧ k % 2 = (g + h) % 2)) : productPart s A B g h k = empty := by
  have missing : (productPart s A B g h k).blades = [] := by
    refine List.eq_nil_iff_forall_not_mem.mpr fun blade mem => outside ?_
    obtain ⟨present, graded⟩ := mem_blades_gradePart.mp mem
    obtain ⟨a, left, b, right, -, -, rfl⟩ := (mem_blades_multiply s .all).mp present
    rw [← (mem_blades_gradePart.mp left).2, ← (mem_blades_gradePart.mp right).2, ← graded]
    exact grade_xor_bounds a b
  exact eq_empty_of_blades missing

/-! ### The derived products -/

theorem scalar_iff (a b : Nat) : Selection.scalar a b = true ↔ grade (a ^^^ b) = 0 := by
  have lost := grade_xor a b
  have shared := grade_and_le a b
  simp only [Selection.scalar, Bool.and_eq_true, beq_iff_eq]
  omega

theorem left_add_right (a b : Nat) :
    weight s .left a b + weight s .right a b = weight s .inner a b + weight s .scalar a b := by
  have bounds := grade_xor_bounds a b
  simp only [weight, scalar_iff]
  simp only [Selection.left, Selection.right, Selection.inner, Bool.and_eq_true, decide_eq_true_eq, beq_iff_eq]
  rcases Nat.lt_trichotomy (grade a) (grade b) with less | same | more
  · have other : ¬ grade b ≤ grade a := by omega
    have positive : grade (a ^^^ b) ≠ 0 := by omega
    simp [less.le, other, positive]
  · simp [same]
  · have other : ¬ grade a ≤ grade b := by omega
    have positive : grade (a ^^^ b) ≠ 0 := by omega
    simp [more.le, other, positive]

/-- The derived products by grade: of the geometric product of a part of grade `g` and a part of grade `h`, the outer
product keeps the grade `g + h`, the inner product their difference, and the contractions the difference if it is
one of that side; the scalar product is the scalar part of the whole product. No other grades come up than those
between difference and sum, in steps of two. So both contractions together are the inner and the scalar product. -/
theorem derived_products_by_grade {A B : Terms α} (left : A.Within s.dimension) (right : B.Within s.dimension) :
    (∀ blade, (A.outerProduct s B).coeff blade =
      ∑ g ∈ Finset.range (s.dimension + 1), ∑ h ∈ Finset.range (s.dimension + 1),
        (productPart s A B g h (g + h)).coeff blade) ∧
    (∀ blade, (A.innerProduct s B).coeff blade =
      ∑ g ∈ Finset.range (s.dimension + 1), ∑ h ∈ Finset.range (s.dimension + 1),
        (productPart s A B g h ((g : ℤ) - h).natAbs).coeff blade) ∧
    (∀ blade, (A.leftContraction s B).coeff blade =
      ∑ g ∈ Finset.range (s.dimension + 1), ∑ h ∈ Finset.Icc g s.dimension,
        (productPart s A B g h (h - g)).coeff blade) ∧
    (∀ blade, (A.rightContraction s B).coeff blade =
      ∑ g ∈ Finset.range (s.dimension + 1), ∑ h ∈ Finset.range (g + 1), (productPart s A B g h (g - h)).coeff blade) ∧
    (A.scalarProduct s B).Agrees ((A.geometricProduct s B).gradePart 0) ∧
    (∀ g h k : Nat, ¬ (((g : ℤ) - h).natAbs ≤ k ∧ k ≤ g + h ∧ k % 2 = (g + h) % 2) → productPart s A B g h k = empty) ∧
    ((A.leftContraction s B).add (A.rightContraction s B)).Agrees
      ((A.innerProduct s B).add (A.scalarProduct s B)) := by
  rw [outerProduct_eq_multiply]
  refine ⟨coeff_multiply_parts s left right ?_, coeff_multiply_parts s left right ?_,
    coeff_multiply_parts s left right ?_, coeff_multiply_parts s left right ?_, ?_,
    fun g h k => productPart_eq_empty s A B, ?_⟩
  · intro a b _ small
    simp only [Selection.disjoint, beq_iff_eq, and_eq_zero_iff, Finset.mem_range]
    omega
  · intro a b _ small
    simp only [Selection.inner, beq_iff_eq, Finset.mem_range]
    split <;> omega
  · intro a b _ small
    simp only [Selection.left, Bool.and_eq_true, decide_eq_true_eq, beq_iff_eq, Finset.mem_Icc]
    omega
  · intro a b _ _
    simp only [Selection.right, Bool.and_eq_true, decide_eq_true_eq, beq_iff_eq, Finset.mem_range]
    omega
  · rw [agrees_iff, scalarProduct, combination_multiply, combination_gradePart, combination_geometricProduct,
      filter_convolve]
    exact convolve_congr fun a _ b _ => by simp only [weight, scalar_iff]
  · simp only [agrees_iff, combination_add, leftContraction, rightContraction, innerProduct, scalarProduct,
      combination_multiply, ← convolve_add_weight]
    exact convolve_congr fun a _ b _ => left_add_right s a b

def mixedLeft : Terms ℤ := ⟨[(0, 2), (3, 5), (6, 1)], by decide⟩

def mixedRight : Terms ℤ := ⟨[(1, 3), (3, 1), (7, 4)], by decide⟩

theorem derived_products_mixed :
    mixedLeft.Within 3 ∧ mixedRight.Within 3 ∧ (mixedLeft.innerProduct ⟨1, 1, 1⟩ mixedRight).coeff 4 = 20 ∧
      ∑ g ∈ Finset.range 4, ∑ h ∈ Finset.range 4,
        (productPart ⟨1, 1, 1⟩ mixedLeft mixedRight g h ((g : ℤ) - h).natAbs).coeff 4 = 20 := by
  have left : mixedLeft.Within 3 := by unfold Within; decide
  have right : mixedRight.Within 3 := by unfold Within; decide
  obtain ⟨-, inner, -⟩ := derived_products_by_grade ⟨1, 1, 1⟩ left right
  have computed : (mixedLeft.innerProduct ⟨1, 1, 1⟩ mixedRight).coeff 4 = 20 := by decide +kernel
  exact ⟨left, right, computed, (inner 4).symm.trans computed⟩

end Terms

end Bladewright
