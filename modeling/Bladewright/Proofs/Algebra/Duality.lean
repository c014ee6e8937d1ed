import Bladewright.Proofs.Algebra.Complements
import Bladewright.Proofs.Algebra.Inverses

/-!
The dual, which multiplies by the pseudoscalar.
-/
namespace Bladewright.Terms

open Blade

variable {α : Type} [CommRing α] (s : Signature)

/-! ### The sign of a product with the pseudoscalar -/

theorem testBit_fullBlade (i : Nat) : (fullBlade s).testBit i = decide (i < s.dimension) :=
  Nat.testBit_two_pow_sub_one s.dimension i

theorem square_ne_zero (i : Nat) : s.square i ≠ 0 ↔ i < s.positive + s.negative := by
  unfold Signature.square
  split
  · simp only [ne_eq, one_ne_zero, not_false_eq_true, true_iff]
    omega
  · split <;> simp_all

theorem productSign_full_ne_zero (blade : Nat) : productSign s blade (fullBlade s) ≠ 0 ↔
    ∀ i, s.positive + s.negative ≤ i → i < s.dimension → blade.testBit i = false := by
  have sign : reorderingSign blade (fullBlade s) ≠ 0 := by
    rcases reorderingSign_cases blade (fullBlade s) with unit | unit <;> simp [unit]
  rw [productSign, mul_ne_zero_iff, and_iff_right sign, metricFactor_eq_prod, Finset.prod_ne_zero_iff]
  refine forall_congr' fun i => ?_
  rw [mem_support, Nat.testBit_and, testBit_fullBlade, square_ne_zero]
  cases blade.testBit i with
  | false => simp
  | true =>
    simp only [Bool.true_and, decide_eq_true_eq, Bool.true_eq_false, imp_false]
    omega

theorem metricFactor_full (regular : s.degenerate = 0) : metricFactor s (fullBlade s) = (-1) ^ s.negative := by
  have dimension : s.dimension = s.positive + s.negative := by simp [Signature.dimension, regular]
  have first : ∀ i ∈ Finset.range s.positive, s.square i = 1 := by
    intro i small
    rw [Signature.square, if_pos (Finset.mem_range.mp small)]
  have second : ∀ i ∈ Finset.range s.negative, s.square (s.positive + i) = -1 := by
    intro i small
    rw [Finset.mem_range] at small
    rw [Signature.square, if_neg (by omega), if_pos (by omega)]
  rw [metricFactor_eq_prod, fullBlade, Signature.size, Nat.pow_eq, support_full, dimension, Finset.prod_range_add,
    Finset.prod_congr rfl first, Finset.prod_congr rfl second, Finset.prod_const_one, one_mul, Finset.prod_const,
    Finset.card_range]

theorem productSign_full (regular : s.degenerate = 0) :
    productSign s (fullBlade s) (fullBlade s) = (-1) ^ (s.dimension * (s.dimension - 1) / 2 + s.negative) := by
  have reordered : reorderingSign (fullBlade s) (fullBlade s) = (-1) ^ (s.dimension * (s.dimension - 1) / 2) := by
    rw [← reverseSign_grade, fullBlade, Signature.size, Nat.pow_eq, grade_full, reverseSign_natCast,
      Nat.choose_two_right]
  rw [productSign, Nat.and_self, reordered, metricFactor_full s regular, pow_add]

theorem productSign_full_of_degenerate (degenerate : 0 < s.degenerate) :
    productSign s (fullBlade s) (fullBlade s) = 0 := by
  by_contra nonzero
  have inside : s.positive + s.negative < s.dimension := by
    rw [Signature.dimension]
    omega
  have absent := (productSign_full_ne_zero s (fullBlade s)).mp nonzero _ le_rfl inside
  rw [testBit_fullBlade, decide_eq_false_iff_not] at absent
  exact absent inside

theorem productSign_full_full (blade : Nat) :
    productSign s (blade ^^^ fullBlade s) (fullBlade s) * productSign s blade (fullBlade s) =
      productSign s (fullBlade s) (fullBlade s) := by
  rw [mul_comm, productSign_cocycle, Nat.xor_self, productSign_zero_right, mul_one]

theorem productSign_full_reverse (euclidean : s.dimension = s.positive) (blade : Nat) :
    productSign s blade (fullBlade s) * reverseSign (grade blade) = rightSign (fullBlade s) blade := by
  have metric : metricFactor s (blade &&& fullBlade s) = 1 := by
    rw [metricFactor_eq_prod]
    refine Finset.prod_eq_one fun i mem => ?_
    rw [mem_support, Nat.testBit_and, testBit_fullBlade, Bool.and_eq_true, decide_eq_true_eq, euclidean] at mem
    rw [Signature.square, if_pos mem.2]
  rw [productSign, metric, mul_one, reverseSign_grade, rightSign, reorderingSign_xor_right]

/-! ### The dual -/

theorem mem_blades_dual {A : Terms α} {blade : Nat} : blade ∈ (A.dual s).blades ↔
    ∃ a ∈ A.blades, productSign s a (fullBlade s) ≠ 0 ∧ a ^^^ fullBlade s = blade := by
  rw [dual, geometricProduct, mem_blades_multiply]
  simp [pseudoscalar, blades, single, Selection.all]

theorem combination_dual (A : Terms α) : (A.dual s).combination =
    relabel (· ^^^ fullBlade s) (fun blade => productSign s blade (fullBlade s)) A.combination := by
  rw [dual, combination_geometricProduct, pseudoscalar, combination_single]
  induction A.combination using Finsupp.induction_linear with
  | zero => simp
  | add X Y ih ih' => rw [convolve_add_left, relabel_add, ih, ih']
  | single a x => rw [convolve_single, relabel_single, mul_one]

theorem mem_blades_dual_dual {A : Terms α} {blade : Nat} : blade ∈ ((A.dual s).dual s).blades ↔
    blade ∈ A.blades ∧ productSign s (fullBlade s) (fullBlade s) ≠ 0 := by
  constructor
  · intro present
    obtain ⟨b, inside, kept, rfl⟩ := (mem_blades_dual s).mp present
    obtain ⟨a, mem, kept', rfl⟩ := (mem_blades_dual s).mp inside
    rw [Nat.xor_assoc, Nat.xor_self, Nat.xor_zero, ← productSign_full_full s a]
    exact ⟨mem, mul_ne_zero kept kept'⟩
  · rintro ⟨mem, nonzero⟩
    rw [← productSign_full_full s blade, mul_ne_zero_iff] at nonzero
    refine (mem_blades_dual s).mpr ⟨_, (mem_blades_dual s).mpr ⟨blade, mem, nonzero.2, rfl⟩, nonzero.1, ?_⟩
    rw [Nat.xor_assoc, Nat.xor_self, Nat.xor_zero]

theorem combination_dual_dual (A : Terms α) :
    ((A.dual s).dual s).combination = productSign s (fullBlade s) (fullBlade s) • A.combination := by
  rw [combination_dual, combination_dual, relabel_relabel]
  simp only [productSign_full_full, Nat.xor_assoc, Nat.xor_self, Nat.xor_zero]
  induction A.combination using Finsupp.induction_linear with
  | zero => simp
  | add X Y ih ih' => rw [relabel_add, ih, ih', smul_add]
  | single blade x => rw [relabel_single, Finsupp.smul_single]

theorem dual_dual (regular : s.degenerate = 0) (A : Terms α) : ((A.dual s).dual s).Same
    (A.scale ((-1) ^ (s.dimension * (s.dimension - 1) / 2 + s.negative))) := by
  have square := productSign_full s regular
  refine same_iff.mpr ⟨fun blade => ?_, ?_⟩
  · rw [mem_blades_dual_dual, scale, blades_map, square]
    exact and_iff_left (pow_ne_zero _ (by decide))
  · rw [combination_dual_dual, combination_scale, square, ← Int.cast_smul_eq_zsmul α]
    simp

theorem dual_dual_of_degenerate (degenerate : 0 < s.degenerate) (A : Terms α) : (A.dual s).dual s = empty := by
  refine eq_empty_of_blades (List.eq_nil_iff_forall_not_mem.mpr fun blade present => ?_)
  exact ((mem_blades_dual_dual s).mp present).2 (productSign_full_of_degenerate s degenerate)

theorem dual_reverse (negative : s.negative = 0) (regular : s.degenerate = 0) (A : Terms α) :
    (A.reverse.dual s).Same (A.rightComplement s) := by
  have dimension : s.dimension = s.positive := by simp [Signature.dimension, negative, regular]
  refine same_iff.mpr ⟨fun blade => ?_, ?_⟩
  · rw [mem_blades_dual, blades_reverse, blades_rightComplement, List.mem_map]
    refine exists_congr fun a => and_congr_right fun _ => ?_
    rw [Nat.xor_comm (fullBlade s) a]
    refine and_iff_right ((productSign_full_ne_zero s a).mpr fun i large small => ?_)
    omega
  · rw [combination_dual, combination_reverse, combination_rightComplement, relabel_relabel]
    simp only [id_eq, productSign_full_reverse s dimension, Nat.xor_comm]

/-- The dual by the pseudoscalar. In a metric that is not degenerate, the dual taken twice gives back the terms with the
sign of the square of the pseudoscalar. In a degenerate metric it gives nothing, and the dual has the complements of
those blades that have no degenerate basis vector. If all basis vectors square to one, then the dual of the reverse is
the right complement. -/
theorem dual_laws (A : Terms α) :
    (s.degenerate = 0 → ((A.dual s).dual s).Same
      (A.scale ((-1) ^ (s.dimension * (s.dimension - 1) / 2 + s.negative)))) ∧
    (0 < s.degenerate → (A.dual s).dual s = empty ∧ ∀ blade, blade ∈ (A.dual s).blades ↔ ∃ a ∈ A.blades,
      (∀ i, s.positive + s.negative ≤ i → i < s.dimension → a.testBit i = false) ∧ fullBlade s ^^^ a = blade) ∧
    (s.negative = 0 → s.degenerate = 0 → (A.reverse.dual s).Same (A.rightComplement s)) := by
  refine ⟨fun regular => dual_dual s regular A, fun degenerate => ⟨dual_dual_of_degenerate s degenerate A, ?_⟩,
    fun negative regular => dual_reverse s negative regular A⟩
  intro blade
  simp only [mem_blades_dual, productSign_full_ne_zero, Nat.xor_comm]

def everyGrade : Terms ℤ := ⟨[(0, 2), (1, 3), (2, 5), (3, 7)], by decide⟩

/-- In three dimensions with one negative square the dual taken twice keeps the terms, in a degenerate plane the dual
loses what has the degenerate vector, and in the plane with positive squares the dual of the reverse is the right
complement. -/
theorem dual_laws_everyGrade :
    ((everyGrade.dual ⟨2, 1, 0⟩).dual ⟨2, 1, 0⟩).Same (everyGrade.scale ((-1) ^ (3 * (3 - 1) / 2 + 1))) ∧
    (everyGrade.dual ⟨1, 0, 1⟩).dual ⟨1, 0, 1⟩ = empty ∧
    2 ∈ (everyGrade.dual ⟨1, 0, 1⟩).blades ∧ 1 ∉ (everyGrade.dual ⟨1, 0, 1⟩).blades ∧
    (everyGrade.reverse.dual ⟨2, 0, 0⟩).Same (everyGrade.rightComplement ⟨2, 0, 0⟩) := by
  have twice := (dual_laws ⟨2, 1, 0⟩ everyGrade).1 rfl
  obtain ⟨nothing, kept⟩ := (dual_laws ⟨1, 0, 1⟩ everyGrade).2.1 (by decide)
  have reversed := (dual_laws ⟨2, 0, 0⟩ everyGrade).2.2 rfl rfl
  refine ⟨twice, nothing, (kept 2).mpr ⟨1, by decide, ?_, rfl⟩, by decide +kernel, reversed⟩
  intro i large small
  obtain rfl : i = 1 := le_antisymm (Nat.le_of_lt_succ small) large
  rfl

end Bladewright.Terms
