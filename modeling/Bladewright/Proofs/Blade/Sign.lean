import Bladewright.Blade.Basic
import Mathlib.Algebra.BigOperators.Group.Finset.Sigma
import Mathlib.Algebra.BigOperators.Ring.Finset
import Mathlib.Tactic.Ring

/-!
The sign of the product of two blades. As a set of basis vectors a blade is its support, and exclusive or is the
symmetric difference of supports. The loop over the shifts of a mask counts the pairs of a basis vector on the left and
a lower one on the right (`swaps_eq_card`): each shift finds the pairs of one distance.
-/
namespace Bladewright.Blade

open List

/-! ### Blades as sets of basis vectors -/

def support (blade : Nat) : Finset Nat := (indices blade).toFinset

variable {blade i width : Nat}

@[simp] theorem mem_indices : i ∈ indices blade ↔ blade.testBit i = true := by
  simp only [indices, mem_filter, mem_range, and_iff_right_iff_imp]
  intro present
  by_contra beyond
  have small : blade < 2 ^ i := Nat.lt_of_lt_of_le Nat.lt_log2_self (Nat.pow_le_pow_right (by omega) (by omega))
  simp [Nat.testBit_lt_two_pow small] at present

@[simp] theorem mem_support : i ∈ support blade ↔ blade.testBit i = true := by
  simp [support]

theorem nodup_indices (blade : Nat) : (indices blade).Nodup := nodup_range.filter _

theorem card_support (blade : Nat) : (support blade).card = grade blade := by
  rw [support, toFinset_card_of_nodup (nodup_indices blade), indices, grade, countP_eq_length_filter]

theorem support_eq_filter (small : blade < 2 ^ width) :
    support blade = (Finset.range width).filter (fun i => blade.testBit i = true) := by
  ext i
  simp only [mem_support, Finset.mem_filter, Finset.mem_range]
  refine ⟨fun present => ⟨?_, present⟩, fun inside => inside.2⟩
  by_contra beyond
  have smaller : blade < 2 ^ i := Nat.lt_of_lt_of_le small (Nat.pow_le_pow_right (by omega) (by omega))
  simp [Nat.testBit_lt_two_pow smaller] at present

theorem prod_support (small : blade < 2 ^ width) (f : Nat → Int) :
    ∏ i ∈ support blade, f i = ∏ i ∈ Finset.range width, if blade.testBit i then f i else 1 := by
  rw [support_eq_filter small, Finset.prod_filter]

@[simp] theorem support_zero : support 0 = ∅ := by
  ext i
  simp

/-- A product of signs over an exclusive or: what both blades have cancels. -/
theorem prod_support_xor (a b : Nat) (f : Nat → Int) (sign : ∀ i, f i * f i = 1) :
    ∏ i ∈ support (a ^^^ b), f i = (∏ i ∈ support a, f i) * ∏ i ∈ support b, f i := by
  have smallA : a < 2 ^ (a + b) := Nat.lt_of_le_of_lt (Nat.le_add_right a b) Nat.lt_two_pow_self
  have smallB : b < 2 ^ (a + b) := Nat.lt_of_le_of_lt (Nat.le_add_left b a) Nat.lt_two_pow_self
  rw [prod_support (Nat.xor_lt_two_pow smallA smallB), prod_support smallA, prod_support smallB,
    ← Finset.prod_mul_distrib]
  refine Finset.prod_congr rfl fun i _ => ?_
  rw [Nat.testBit_xor]
  cases a.testBit i <;> cases b.testBit i <;> simp [sign]

/-! ### The reordering sign -/

/-- The sign of moving one basis vector past another to its right. -/
def pairSign (i j : Nat) : Int := if j < i then -1 else 1

theorem pairSign_mul_self (i j : Nat) : pairSign i j * pairSign i j = 1 := by
  unfold pairSign
  split <;> rfl

/-- The loop over the shifts of a mask: `width` of them exhaust a mask of so many bits. -/
theorem countShared_eq_sum {width a : Nat} (small : a < 2 ^ width) (b count : Nat) :
    countShared b a count = count + ∑ k ∈ Finset.range width, grade ((a >>> k) &&& b) := by
  induction width generalizing a count with
  | zero =>
    obtain rfl : a = 0 := by simpa using small
    simp [countShared]
  | succ width ih =>
    rw [countShared]
    split
    case isTrue zero =>
      subst zero
      simp [grade]
    case isFalse _ =>
      have half : a >>> 1 < 2 ^ width := by
        rw [Nat.shiftRight_eq_div_pow]
        omega
      rw [ih half, Finset.sum_range_succ', add_assoc, add_comm (grade _)]
      simp only [← Nat.shiftRight_add, add_comm 1, Nat.shiftRight_zero]

/-- The basis vectors that are `k + 1` places apart, the higher on the left and the lower on the right. -/
theorem grade_shifted (a b k : Nat) : grade ((a >>> (k + 1)) &&& b) =
    ((support a ×ˢ support b).filter fun pair => pair.1 = pair.2 + (k + 1)).card := by
  rw [← card_support]
  refine Finset.card_bij (fun j _ => (j + (k + 1), j)) ?_ ?_ ?_
  · intro j shared
    simpa [Nat.add_comm] using shared
  · intro j _ j' _ same
    exact congrArg Prod.snd same
  · rintro ⟨i, j⟩ paired
    simp only [Finset.mem_filter, Finset.mem_product, mem_support] at paired
    obtain ⟨⟨own, other⟩, rfl⟩ := paired
    exact ⟨j, by simpa [Nat.add_comm] using ⟨own, other⟩, rfl⟩

/-- The loop counts the pairs of a basis vector on the left and a lower one on the right, by their distance. -/
theorem swaps_eq_card (a b : Nat) :
    swaps a b = ((support a ×ˢ support b).filter fun pair => pair.2 < pair.1).card := by
  have bound : a >>> 1 < 2 ^ a := Nat.lt_of_le_of_lt (Nat.shiftRight_le a 1) Nat.lt_two_pow_self
  rw [swaps, countShared_eq_sum bound, zero_add, Finset.card_eq_sum_card_fiberwise (f := fun p => p.1 - p.2 - 1)
    (t := Finset.range a)]
  · refine Finset.sum_congr rfl fun k _ => ?_
    rw [← Nat.shiftRight_add, Nat.add_comm 1, grade_shifted, Finset.filter_filter]
    congr 1
    refine Finset.filter_congr fun pair _ => ?_
    omega
  · rintro ⟨i, j⟩ paired
    simp only [Finset.coe_filter, Finset.mem_product, mem_support, Set.mem_ofPred_eq] at paired
    have inside : i < a := Nat.lt_of_lt_of_le Nat.lt_two_pow_self (Nat.ge_two_pow_of_testBit paired.1.1)
    simp only [Finset.coe_range, Set.mem_Iio]
    omega

theorem neg_one_pow_swaps (a b : Nat) : (-1 : Int) ^ swaps a b = ∏ i ∈ support a, ∏ j ∈ support b, pairSign i j := by
  rw [swaps_eq_card, ← Finset.prod_product']
  simp [pairSign, Finset.prod_ite]

theorem reorderingSign_eq_pow (a b : Nat) : reorderingSign a b = (-1) ^ swaps a b := by
  rw [reorderingSign]
  split
  · rename_i odd
    exact (Odd.neg_one_pow (Nat.odd_iff.mpr odd)).symm
  · rename_i even
    exact (Even.neg_one_pow (Nat.even_iff.mpr (by omega))).symm

theorem reorderingSign_eq_prod (a b : Nat) : reorderingSign a b = ∏ i ∈ support a, ∏ j ∈ support b, pairSign i j :=
  (reorderingSign_eq_pow a b).trans (neg_one_pow_swaps a b)

private theorem row_mul_self (b i : Nat) : (∏ j ∈ support b, pairSign i j) * ∏ j ∈ support b, pairSign i j = 1 := by
  rw [← Finset.prod_mul_distrib]
  exact Finset.prod_eq_one fun j _ => pairSign_mul_self i j

theorem reorderingSign_xor_left (a b c : Nat) :
    reorderingSign (a ^^^ b) c = reorderingSign a c * reorderingSign b c := by
  simp only [reorderingSign_eq_prod]
  exact prod_support_xor a b _ fun i => row_mul_self c i

theorem reorderingSign_xor_right (a b c : Nat) :
    reorderingSign a (b ^^^ c) = reorderingSign a b * reorderingSign a c := by
  simp only [reorderingSign_eq_prod]
  rw [← Finset.prod_mul_distrib]
  exact Finset.prod_congr rfl fun i _ => prod_support_xor b c _ fun j => pairSign_mul_self i j

/-! ### The metric factor -/

theorem metricFactor_eq_prod (s : Signature) (common : Nat) :
    metricFactor s common = ∏ i ∈ support common, s.square i := by
  rw [support, prod_toFinset _ (nodup_indices common), metricFactor, prod_eq_foldl, foldl_map]

/-- Grouped either way, the squares are those of the basis vectors that at least two of three blades
have. -/
theorem metricFactor_cocycle (s : Signature) (a b c : Nat) :
    metricFactor s (a &&& b) * metricFactor s ((a ^^^ b) &&& c) =
      metricFactor s (a &&& (b ^^^ c)) * metricFactor s (b &&& c) := by
  have smallB : b < 2 ^ (a + b + c) := Nat.lt_of_le_of_lt (by omega) Nat.lt_two_pow_self
  have smallC : c < 2 ^ (a + b + c) := Nat.lt_of_le_of_lt (by omega) Nat.lt_two_pow_self
  have smallBC := Nat.xor_lt_two_pow smallB smallC
  simp only [metricFactor_eq_prod]
  rw [prod_support (Nat.and_lt_two_pow a smallB), prod_support (Nat.and_lt_two_pow (a ^^^ b) smallC),
    prod_support (Nat.and_lt_two_pow a smallBC), prod_support (Nat.and_lt_two_pow b smallC),
    ← Finset.prod_mul_distrib, ← Finset.prod_mul_distrib]
  refine Finset.prod_congr rfl fun i _ => ?_
  simp only [Nat.testBit_and, Nat.testBit_xor]
  cases a.testBit i <;> cases b.testBit i <;> cases c.testBit i <;> simp

/-! ### The sign of a product -/

theorem productSign_cocycle (s : Signature) (a b c : Nat) :
    productSign s a b * productSign s (a ^^^ b) c = productSign s b c * productSign s a (b ^^^ c) := by
  have metric := metricFactor_cocycle s a b c
  simp only [productSign, reorderingSign_xor_left, reorderingSign_xor_right]
  calc _ = reorderingSign a b * reorderingSign a c * reorderingSign b c *
        (metricFactor s (a &&& b) * metricFactor s ((a ^^^ b) &&& c)) := by ring
    _ = _ := by rw [metric]; ring

theorem square_cases (s : Signature) (i : Nat) : s.square i = 1 ∨ s.square i = -1 ∨ s.square i = 0 := by
  unfold Signature.square
  split
  · exact .inl rfl
  · split
    · exact .inr (.inl rfl)
    · exact .inr (.inr rfl)

theorem metricFactor_cases (s : Signature) (common : Nat) :
    metricFactor s common = 1 ∨ metricFactor s common = -1 ∨ metricFactor s common = 0 := by
  rw [metricFactor_eq_prod]
  refine Finset.prod_induction _ (fun x : Int => x = 1 ∨ x = -1 ∨ x = 0) ?_ (.inl rfl)
    fun i _ => square_cases s i
  rintro x y (rfl | rfl | rfl) (rfl | rfl | rfl) <;> simp

theorem productSign_cases (s : Signature) (a b : Nat) :
    productSign s a b = 1 ∨ productSign s a b = -1 ∨ productSign s a b = 0 := by
  unfold productSign reorderingSign
  rcases metricFactor_cases s (a &&& b) with h | h | h <;> split <;> simp [h]

@[simp] theorem productSign_zero_left (s : Signature) (b : Nat) : productSign s 0 b = 1 := by
  simp [productSign, reorderingSign_eq_prod, metricFactor_eq_prod]

@[simp] theorem productSign_zero_right (s : Signature) (a : Nat) : productSign s a 0 = 1 := by
  simp [productSign, reorderingSign_eq_prod, metricFactor_eq_prod]

/-! ### The sign of a product with one more basis vector -/

theorem support_two_pow (i : Nat) : support (2 ^ i) = {i} := by
  ext j
  simp [Nat.testBit_two_pow, eq_comm]

theorem and_two_pow (blade i : Nat) : blade &&& 2 ^ i = if blade.testBit i then 2 ^ i else 0 := by
  refine Nat.eq_of_testBit_eq fun j => ?_
  rw [Nat.testBit_and, Nat.testBit_two_pow]
  by_cases same : i = j
  · subst same
    cases blade.testBit i <;> simp
  · cases blade.testBit i <;> simp [same]

theorem metricFactor_two_pow (s : Signature) (i : Nat) : metricFactor s (2 ^ i) = s.square i := by
  rw [metricFactor_eq_prod, support_two_pow, Finset.prod_singleton]

@[simp] theorem metricFactor_zero (s : Signature) : metricFactor s 0 = 1 := rfl

theorem reorderingSign_ne_zero (a b : Nat) : reorderingSign a b ≠ 0 := by
  unfold reorderingSign
  split <;> decide

theorem productSign_two_pow_eq_zero {s : Signature} :
    productSign s blade (2 ^ i) = 0 ↔ blade.testBit i = true ∧ s.square i = 0 := by
  rw [productSign, and_two_pow, mul_eq_zero, or_iff_right (reorderingSign_ne_zero _ _)]
  cases blade.testBit i
  · simp
  · simp [metricFactor_two_pow]

theorem indices_two_pow (i : Nat) : indices (2 ^ i) = [i] := by
  have lower : (List.range i).filter (Nat.testBit (2 ^ i)) = [] := by
    rw [filter_eq_nil_iff]
    intro j mem
    simp [Nat.ne_of_gt (mem_range.mp mem)]
  rw [indices, Nat.log2_two_pow, range_succ, filter_append, lower, nil_append]
  simp

theorem beyond?_two_pow (s : Signature) (i : Nat) : beyond? s (2 ^ i) = if s.dimension ≤ i then some i else none := by
  rw [beyond?, indices_two_pow, List.find?_singleton]
  by_cases late : s.positive + s.negative ≤ i
  · simp [late]
  · have inside : ¬ s.dimension ≤ i := fun outside => late (Nat.le_trans (Nat.le_add_right _ _) outside)
    simp [late, inside]

theorem checkedProduct_two_pow (s : Signature) (blade i : Nat) :
    checkedProduct s blade (2 ^ i) = if blade.testBit i = true ∧ s.dimension ≤ i then .error (.outOfRange i s)
      else .ok (blade ^^^ 2 ^ i, productSign s blade (2 ^ i)) := by
  rw [checkedProduct, and_two_pow]
  cases blade.testBit i with
  | false =>
    simp only [Bool.false_eq_true, if_false, false_and]
    rfl
  | true =>
    rw [if_pos rfl, beyond?_two_pow]
    by_cases outside : s.dimension ≤ i
    · simp only [outside, if_true, and_self]
      rfl
    · simp only [outside, if_false, and_false]
      rfl

end Bladewright.Blade
