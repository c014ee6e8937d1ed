import Bladewright.Proofs.Blade.Grade

/-!
The signs of the involutions and of the complements. Reversing a blade moves each of its basis vectors past all lower
ones, so the sign of the reverse is the reordering sign of the blade with itself (`reverseSign_grade`).
-/
namespace Bladewright.Blade

theorem reorderingSign_cases (a b : Nat) : reorderingSign a b = 1 ∨ reorderingSign a b = -1 := by
  unfold reorderingSign
  split
  · exact .inr rfl
  · exact .inl rfl

@[simp] theorem reorderingSign_mul_self (a b : Nat) : reorderingSign a b * reorderingSign a b = 1 := by
  rcases reorderingSign_cases a b with sign | sign <;> simp [sign]

@[simp] theorem reorderingSign_zero_right (a : Nat) : reorderingSign a 0 = 1 := by
  simp [reorderingSign_eq_prod]

/-! ### The reverse -/

theorem prod_pairSign_self (vectors : Finset Nat) :
    ∏ i ∈ vectors, ∏ j ∈ vectors, pairSign i j = (-1) ^ vectors.card.choose 2 := by
  induction vectors using Finset.induction_on_max with
  | empty => simp
  | insert top rest below ih =>
    have fresh : top ∉ rest := fun mem => lt_irrefl top (below top mem)
    -- the new highest vector passes all others, and none of them passes it
    have above : ∏ j ∈ rest, pairSign top j = (-1) ^ rest.card :=
      Finset.prod_eq_pow_card fun j mem => if_pos (below j mem)
    have under (i : Nat) (mem : i ∈ rest) : pairSign i top = 1 := if_neg (below i mem).not_gt
    have itself : pairSign top top = 1 := if_neg (lt_irrefl top)
    simp only [Finset.prod_insert fresh, Finset.card_insert_of_notMem fresh, Finset.prod_mul_distrib, above, itself,
      Finset.prod_congr rfl under, Finset.prod_const_one, one_mul, ih]
    rw [Nat.choose_succ_succ', Nat.choose_one_right, pow_add]

theorem reverseSign_natCast (k : Nat) : reverseSign k = (-1) ^ k.choose 2 := by
  have pairs : ((k : ℤ) * (k - 1) / 2) = (k.choose 2 : ℕ) := by
    rw [Nat.choose_two_right]
    cases k with
    | zero => rfl
    | succ k => push_cast; simp
  rw [reverseSign, pairs]
  split
  · rename_i odd
    exact (Odd.neg_one_pow (Nat.odd_iff.mpr (by omega))).symm
  · rename_i even
    exact (Even.neg_one_pow (Nat.even_iff.mpr (by omega))).symm

/-- Reversing a blade moves each of its basis vectors past all lower ones. -/
theorem reverseSign_grade (blade : Nat) : reverseSign (grade blade) = reorderingSign blade blade := by
  rw [reorderingSign_eq_prod, prod_pairSign_self, card_support, reverseSign_natCast]

theorem reverseSign_cases (k : ℤ) : reverseSign k = 1 ∨ reverseSign k = -1 := by
  unfold reverseSign
  split
  · exact .inr rfl
  · exact .inl rfl

theorem productSign_comm_ne_zero {s : Signature} {a b : Nat} (nonzero : productSign s a b ≠ 0) :
    productSign s b a ≠ 0 := by
  rw [productSign, Nat.and_comm]
  refine mul_ne_zero ?_ (right_ne_zero_of_mul nonzero)
  rcases reorderingSign_cases b a with sign | sign <;> simp [sign]

theorem reverseSign_productSign (s : Signature) (a b : Nat) :
    reverseSign (grade (a ^^^ b)) * productSign s a b =
      productSign s b a * (reverseSign (grade b) * reverseSign (grade a)) := by
  simp only [reverseSign_grade, reorderingSign_xor_left, reorderingSign_xor_right, productSign, Nat.and_comm b a]
  calc _ = reorderingSign a b * reorderingSign a b * (reorderingSign b a * metricFactor s (a &&& b) *
        (reorderingSign b b * reorderingSign a a)) := by ring
    _ = _ := by rw [reorderingSign_mul_self, one_mul]

/-! ### The grade involution -/

theorem involutionSign_natCast (k : Nat) : involutionSign k = (-1) ^ k := by
  unfold involutionSign
  split
  · exact (Odd.neg_one_pow (Nat.odd_iff.mpr (by omega))).symm
  · exact (Even.neg_one_pow (Nat.even_iff.mpr (by omega))).symm

theorem involutionSign_cases (k : ℤ) : involutionSign k = 1 ∨ involutionSign k = -1 := by
  unfold involutionSign
  split
  · exact .inr rfl
  · exact .inl rfl

theorem involutionSign_xor (a b : Nat) :
    involutionSign (grade (a ^^^ b)) = involutionSign (grade a) * involutionSign (grade b) := by
  rw [involutionSign_natCast, involutionSign_natCast, involutionSign_natCast, ← pow_add, ← grade_xor, pow_add, pow_mul,
    neg_one_sq, one_pow, mul_one]

/-! ### The complements -/

/-- The sign of a blade in front of what it lacks of the basis vectors of `full`. -/
def rightSign (full blade : Nat) : Int := reorderingSign blade (full ^^^ blade)

def leftSign (full blade : Nat) : Int := reorderingSign (full ^^^ blade) blade

theorem xor_xor_self (full blade : Nat) : full ^^^ (full ^^^ blade) = blade := by
  rw [← Nat.xor_assoc, Nat.xor_self, Nat.zero_xor]

theorem leftSign_complement (full blade : Nat) : leftSign full (full ^^^ blade) = rightSign full blade := by
  rw [leftSign, rightSign, xor_xor_self]

theorem leftSign_cases (full blade : Nat) : leftSign full blade = 1 ∨ leftSign full blade = -1 :=
  reorderingSign_cases _ _

theorem rightSign_cases (full blade : Nat) : rightSign full blade = 1 ∨ rightSign full blade = -1 :=
  reorderingSign_cases _ _

/-- The complements on the two sides differ by moving a blade past all basis vectors. -/
theorem rightSign_mul_leftSign (full blade : Nat) :
    rightSign full blade * leftSign full blade = reorderingSign blade full * reorderingSign full blade := by
  rw [rightSign, leftSign, reorderingSign_xor_left, reorderingSign_xor_right]
  calc _ = reorderingSign blade full * reorderingSign full blade *
        (reorderingSign blade blade * reorderingSign blade blade) := by ring
    _ = _ := by rw [reorderingSign_mul_self, mul_one]

def doubleSign (full blade : Nat) : Int := leftSign full (full ^^^ blade) * leftSign full blade

theorem doubleSign_xor (full a b : Nat) : doubleSign full (a ^^^ b) = doubleSign full a * doubleSign full b := by
  simp only [doubleSign, leftSign_complement, rightSign_mul_leftSign, reorderingSign_xor_left, reorderingSign_xor_right]
  ring

/-! ### Blades that share no basis vector -/

theorem eq_zero_iff_testBit {blade : Nat} : blade = 0 ↔ ∀ i, blade.testBit i = false := by
  constructor
  · rintro rfl i
    exact Nat.zero_testBit i
  · intro bare
    exact Nat.eq_of_testBit_eq fun i => by rw [bare i, Nat.zero_testBit]

theorem disjoint_assoc (a b c : Nat) :
    a &&& b = 0 ∧ (a ^^^ b) &&& c = 0 ↔ b &&& c = 0 ∧ a &&& (b ^^^ c) = 0 := by
  simp only [eq_zero_iff_testBit, Nat.testBit_and, Nat.testBit_xor, ← forall_and]
  refine forall_congr' fun i => ?_
  cases a.testBit i <;> cases b.testBit i <;> cases c.testBit i <;> simp

theorem and_complement {n blade : Nat} (small : blade < 2 ^ n) : blade &&& ((2 ^ n - 1) ^^^ blade) = 0 := by
  rw [eq_zero_iff_testBit]
  intro i
  rw [Nat.testBit_and, Nat.testBit_xor, Nat.testBit_two_pow_sub_one]
  by_cases inside : i < n
  · cases blade.testBit i <;> simp [inside]
  · rw [Nat.testBit_lt_two_pow (small.trans_le (Nat.pow_le_pow_right Nat.two_pos (not_lt.mp inside)))]
    rfl

theorem support_full (n : Nat) : support (2 ^ n - 1) = Finset.range n := by
  ext i
  simp [Nat.testBit_two_pow_sub_one]

theorem grade_full (n : Nat) : grade (2 ^ n - 1) = n := by
  rw [← card_support, support_full, Finset.card_range]

theorem grade_complement {n blade : Nat} (small : blade < 2 ^ n) : grade ((2 ^ n - 1) ^^^ blade) + grade blade = n := by
  have together := (and_eq_zero_iff blade ((2 ^ n - 1) ^^^ blade)).mp (and_complement small)
  rw [Nat.xor_comm (2 ^ n - 1) blade, xor_xor_self, grade_full] at together
  rw [Nat.xor_comm (2 ^ n - 1) blade]
  omega

end Bladewright.Blade
