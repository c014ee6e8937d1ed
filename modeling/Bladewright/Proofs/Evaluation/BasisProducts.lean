import Bladewright.Evaluation.Symbolic
import Bladewright.Proofs.Algebra.Coefficients
import Bladewright.Proofs.Blade.Sign
import Bladewright.Proofs.Coeff.Meaning

/-!
Blades as products of basis vectors.
-/
namespace Bladewright

open List Coeff

namespace Coeff

theorem ofInt_mul (m n : ℤ) : ofInt m * ofInt n = ofInt (m * n) := by
  show num (.exact (m * n : ℚ)) = num (.exact ((m * n : ℤ) : ℚ))
  rw [Int.cast_mul]

theorem ofInt_add (m n : ℤ) : ofInt m + ofInt n = ofInt (m + n) := by
  show num (.exact (m + n : ℚ)) = num (.exact ((m + n : ℤ) : ℚ))
  rw [Int.cast_add]

theorem ofInt_neg (n : ℤ) : -ofInt n = ofInt (-n) := by
  show num (.exact (-(n : ℚ))) = num (.exact ((-n : ℤ) : ℚ))
  rw [Int.cast_neg]

theorem zero_eq_ofInt : (0 : Coeff) = ofInt 0 := by
  rw [zero_eq, ofInt, Scalar.ofInt, Int.cast_zero]

theorem signedMul_ofInt {sign : ℤ} (unit : sign = 1 ∨ sign = -1) (m n : ℤ) :
    Terms.signedMul sign (ofInt m) (ofInt n) = ofInt (m * sign * n) := by
  rcases unit with rfl | rfl
  · rw [Terms.signedMul, if_neg (by decide), ofInt_mul, mul_one]
  · rw [Terms.signedMul, if_pos (by decide), ofInt_neg, ofInt_mul, mul_neg_one]

end Coeff

namespace Blade

/-! ### Two basis vectors -/

theorem reorderingSign_two_pow (i j : Nat) : reorderingSign (2 ^ i) (2 ^ j) = pairSign i j := by
  rw [reorderingSign_eq_prod, support_two_pow, support_two_pow, Finset.prod_singleton, Finset.prod_singleton]

theorem productSign_two_pow_self (s : Signature) (i : Nat) : productSign s (2 ^ i) (2 ^ i) = s.square i := by
  rw [productSign, reorderingSign_two_pow, Nat.and_self, metricFactor_two_pow, pairSign, if_neg (lt_irrefl i), one_mul]

theorem productSign_two_pow_of_ne (s : Signature) {i j : Nat} (differ : i ≠ j) :
    productSign s (2 ^ i) (2 ^ j) = pairSign i j := by
  rw [productSign, reorderingSign_two_pow, and_two_pow, Nat.testBit_two_pow, decide_eq_false differ]
  simp

theorem pairSign_add_swap {i j : Nat} (differ : i ≠ j) : pairSign i j + pairSign j i = 0 := by
  unfold pairSign
  split <;> split <;> omega

/-! ### Several basis vectors -/

theorem productSign_unit {s : Signature} {a b : Nat} (nonzero : productSign s a b ≠ 0) :
    productSign s a b = 1 ∨ productSign s a b = -1 := by
  rcases productSign_cases s a b with one | minus | zero
  · exact .inl one
  · exact .inr minus
  · exact absurd zero nonzero

theorem contract_cons (s : Signature) (blade : Nat) (sign : ℤ) (i : Nat) (rest : List Nat) :
    contract s blade sign (i :: rest) =
      if productSign s blade (2 ^ i) = 0 then (blade ^^^ 2 ^ i, 0)
      else contract s (blade ^^^ 2 ^ i) (sign * productSign s blade (2 ^ i)) rest :=
  rfl

/-- A product of basis vectors behind a blade is zero if and only if a degenerate one is met that the blade has, or
that is met a second time. -/
theorem contract_sign (s : Signature) (factors : List Nat) {blade : Nat} {sign : ℤ} (nonzero : sign ≠ 0) :
    (contract s blade sign factors).2 = 0 ↔
      ∃ i ∈ factors, s.square i = 0 ∧ (blade.testBit i = true ∨ 2 ≤ factors.count i) := by
  induction factors generalizing blade sign with
  | nil => simpa [contract] using nonzero
  | cons i rest ih =>
    rw [contract_cons]
    by_cases factor : productSign s blade (2 ^ i) = 0
    · rw [if_pos factor]
      exact iff_of_true rfl ⟨i, mem_cons_self, (productSign_two_pow_eq_zero.mp factor).symm.imp_right .inl⟩
    · rw [if_neg factor, ih (mul_ne_zero nonzero factor)]
      rw [productSign_two_pow_eq_zero] at factor
      -- A degenerate vector that is not in the blade yet is in the next one, so its next occurrence is its second.
      have next (j : Nat) : (j ∈ rest ∧ s.square j = 0 ∧ ((blade ^^^ 2 ^ i).testBit j = true ∨ 2 ≤ rest.count j)) ↔
          j ∈ i :: rest ∧ s.square j = 0 ∧ (blade.testBit j = true ∨ 2 ≤ (i :: rest).count j) := by
        rw [Nat.testBit_xor, Nat.testBit_two_pow, mem_cons, count_cons]
        by_cases same : j = i
        · subst same
          have counted : 0 < rest.count j ↔ j ∈ rest := count_pos_iff
          by_cases degenerate : s.square j = 0
          · have absent : blade.testBit j = false := by simpa [degenerate] using factor
            simp only [degenerate, absent, beq_self_eq_true, decide_true, Bool.false_xor, if_true, true_or, true_and,
              and_true, Bool.false_eq_true, false_or, ← counted]
            omega
          · simp [degenerate]
        · simp [same, Ne.symm same]
      exact exists_congr next

end Blade

namespace Terms

open Bladewright.Blade

/-! ### Products of single terms -/

section

variable {α : Type} [Add α] [Mul α] [Neg α]

theorem geometricProduct_single (s : Signature) (a b : Nat) (x y : α) :
    (single a x).geometricProduct s (single b y) =
      if productSign s a b = 0 then empty else single (a ^^^ b) (signedMul (productSign s a b) x y) := by
  simp only [geometricProduct, multiply, multiplyTerm, single, Selection.all, foldl_cons, foldl_nil, if_true]
  split <;> rfl

end

def basisVector (i : Nat) : Terms Coeff := single (2 ^ i) 1

/-- The product of basis vectors from left to right, starting with the scalar one. -/
def basisProduct (s : Signature) (factors : List Nat) : Terms Coeff :=
  factors.foldl (fun A i => A.geometricProduct s (basisVector i)) (single 0 1)

/-- The terms of a blade with a sign: none if the sign is zero. -/
def ofSigned (signed : Nat × ℤ) : Terms Coeff :=
  if signed.2 = 0 then empty else single signed.1 (.ofInt signed.2)

theorem foldl_empty (s : Signature) (factors : List Nat) :
    factors.foldl (fun A i => A.geometricProduct s (basisVector i)) empty = (empty : Terms Coeff) := by
  induction factors with
  | nil => rfl
  | cons i rest ih => exact ih

theorem ofSigned_geometricProduct (s : Signature) {blade : Nat} {sign : ℤ} (nonzero : sign ≠ 0) (i : Nat) :
    (ofSigned (blade, sign)).geometricProduct s (basisVector i) =
      ofSigned (blade ^^^ 2 ^ i, sign * productSign s blade (2 ^ i)) := by
  simp only [ofSigned, nonzero, if_false, basisVector, geometricProduct_single, mul_eq_zero, false_or]
  split
  · rfl
  · rename_i factor
    rw [one_eq_ofInt, signedMul_ofInt (productSign_unit factor), mul_one]

theorem foldl_geometricProduct (s : Signature) (factors : List Nat) {blade : Nat} {sign : ℤ} (nonzero : sign ≠ 0) :
    factors.foldl (fun A i => A.geometricProduct s (basisVector i)) (ofSigned (blade, sign)) =
      ofSigned (contract s blade sign factors) := by
  induction factors generalizing blade sign with
  | nil => rfl
  | cons i rest ih =>
    rw [foldl_cons, ofSigned_geometricProduct s nonzero, contract_cons]
    by_cases factor : productSign s blade (2 ^ i) = 0
    · rw [if_pos factor, factor, mul_zero]
      exact foldl_empty s rest
    · rw [if_neg factor]
      exact ih (mul_ne_zero nonzero factor)

theorem basisProduct_eq (s : Signature) (factors : List Nat) :
    basisProduct s factors = ofSigned (ofProduct s factors) := by
  have start : (single 0 1 : Terms Coeff) = ofSigned (0, 1) := by
    rw [ofSigned, if_neg one_ne_zero, one_eq_ofInt]
  rw [basisProduct, start]
  exact foldl_geometricProduct s factors (by decide)

theorem ofSigned_eq_empty {signed : Nat × ℤ} : ofSigned signed = empty ↔ signed.2 = 0 := by
  unfold ofSigned
  split
  · rename_i zero
    exact iff_of_true rfl zero
  · rename_i nonzero
    refine iff_of_false (fun equal => ?_) nonzero
    cases congrArg Terms.entries equal

theorem coeff_ofSigned (signed : Nat × ℤ) (blade : Nat) :
    (ofSigned signed).coeff blade = .ofInt (if blade = signed.1 then signed.2 else 0) := by
  unfold ofSigned
  split
  · rename_i zero
    rw [zero, ite_self]
    exact zero_eq_ofInt
  · by_cases same : blade = signed.1
    · simp [coeff, get?, single, same]
    · simp [coeff, get?, single, same, lookup_cons, beq_eq_false_iff_ne.mpr same, zero_eq_ofInt]

theorem coeff_add_ofSigned (p q : Nat × ℤ) (blade : Nat) :
    ((ofSigned p).add (ofSigned q)).coeff blade =
      .ofInt ((if blade = p.1 then p.2 else 0) + if blade = q.1 then q.2 else 0) := by
  have left := coeff_ofSigned p blade
  by_cases zero : q.2 = 0
  · rw [ofSigned_eq_empty.mpr zero, zero, ite_self, add_zero]
    exact left
  · have appended : (ofSigned p).add (ofSigned q) = (ofSigned p).addAt (· + ·) q.1 (.ofInt q.2) := by
      rw [ofSigned.eq_def q, if_neg zero]
      rfl
    rw [appended, coeff, get?_addAt]
    by_cases here : blade = q.1
    · rw [if_pos here, if_pos here, Option.getD_some]
      rw [coeff] at left
      cases found : (ofSigned p).get? blade with
      | none =>
        rw [found, Option.getD_none, zero_eq_ofInt] at left
        rw [Option.elim_none, ← ofInt_add, ← left, ofInt_add, zero_add]
      | some c =>
        rw [found, Option.getD_some] at left
        rw [Option.elim_some, left, ofInt_add]
    · rw [if_neg here, if_neg here, add_zero]
      exact left

theorem basisVector_eq (i : Nat) : basisVector i = ofSigned (2 ^ i, 1) := by
  rw [ofSigned, if_neg one_ne_zero, basisVector, one_eq_ofInt]

theorem basisVector_mul (s : Signature) (i j : Nat) :
    (basisVector i).geometricProduct s (basisVector j) = ofSigned (2 ^ i ^^^ 2 ^ j, productSign s (2 ^ i) (2 ^ j)) := by
  rw [basisVector_eq i, ofSigned_geometricProduct s (by decide), one_mul]

end Terms

namespace Evaluation

open Bladewright.Terms Bladewright.Blade

theorem evaluate_blade (s : Signature) (factors : List Nat) (exist : ∀ i ∈ factors, i < s.dimension) :
    evaluate symbolic s (.blade (factors.map Int.ofNat)) = .ok (ofSigned (ofProduct s factors)) := by
  have inside : (factors.map Int.ofNat).find? (fun i => (s.dimension : Int) ≤ i) = none := by
    rw [List.find?_eq_none]
    intro i mem
    obtain ⟨k, listed, rfl⟩ := mem_map.mp mem
    simpa using exist k listed
  have natural : (factors.map Int.ofNat).any (· < 0) = false := by
    rw [any_eq_false]
    intro i mem
    obtain ⟨k, -, rfl⟩ := mem_map.mp mem
    simp
  have back : (factors.map Int.ofNat).map Int.toNat = factors := by
    simp [Function.comp_def]
  simp only [evaluate, bladeTerms, inside, natural, back, Bool.false_eq_true, if_false]
  rfl

/-- A blade that is written down means the product of its basis vectors, whatever their order and however often they
occur: nothing at all exactly if a degenerate one occurs twice. Basis vectors square to what the signature says, and
different ones anticommute. -/
theorem blade_means_basisProduct (s : Signature) :
    (∀ factors : List Nat, (∀ i ∈ factors, i < s.dimension) →
      evaluate symbolic s (.blade (factors.map Int.ofNat)) = .ok (basisProduct s factors) ∧
        (basisProduct s factors = empty ↔ ∃ i ∈ factors, s.square i = 0 ∧ 2 ≤ factors.count i)) ∧
    (∀ i < s.dimension, evaluate symbolic s (.blade [(i : ℤ)]) = .ok (basisVector i)) ∧
    ∀ i < s.dimension, ∀ j < s.dimension, ∀ blade,
      (((basisVector i).geometricProduct s (basisVector j)).add
        ((basisVector j).geometricProduct s (basisVector i))).coeff blade =
          if i = j ∧ blade = 0 then .ofInt (2 * s.square i) else 0 := by
  refine ⟨fun factors exist => ⟨?_, ?_⟩, fun i exist => ?_, fun i _ j _ blade => ?_⟩
  · rw [basisProduct_eq, evaluate_blade s factors exist]
  · rw [basisProduct_eq, ofSigned_eq_empty, ofProduct, contract_sign s factors (by decide)]
    simp
  · have value := evaluate_blade s [i] (by simpa using exist)
    rw [ofProduct, contract_cons, productSign_zero_left, Nat.zero_xor, if_neg (by decide), mul_one] at value
    exact value.trans (congrArg Except.ok (basisVector_eq i).symm)
  · rw [basisVector_mul, basisVector_mul, coeff_add_ofSigned]
    by_cases same : i = j
    · subst same
      simp only [productSign_two_pow_self, Nat.xor_self, true_and]
      split
      · rw [two_mul]
      · exact zero_eq_ofInt.symm
    · simp only [same, false_and, if_false, Nat.xor_comm (2 ^ j) (2 ^ i), productSign_two_pow_of_ne s same,
        productSign_two_pow_of_ne s (Ne.symm same)]
      split
      · rw [pairSign_add_swap same, zero_eq_ofInt]
      · rw [add_zero, zero_eq_ofInt]

theorem blade_means_basisProduct_degenerate :
    (∀ i ∈ [2, 1, 0, 1], i < (⟨1, 1, 1⟩ : Signature).dimension) ∧
      evaluate symbolic ⟨1, 1, 1⟩ (.blade [2, 1, 0, 1]) = .ok (single 5 (.ofInt (-1))) ∧
      (∀ i ∈ [2, 0, 2], i < (⟨1, 1, 1⟩ : Signature).dimension) ∧
      evaluate symbolic ⟨1, 1, 1⟩ (.blade [2, 0, 2]) = .ok empty := by
  obtain ⟨products, -⟩ := blade_means_basisProduct ⟨1, 1, 1⟩
  have first : ∀ i ∈ [2, 1, 0, 1], i < (⟨1, 1, 1⟩ : Signature).dimension := by decide
  have second : ∀ i ∈ [2, 0, 2], i < (⟨1, 1, 1⟩ : Signature).dimension := by decide
  have value : basisProduct ⟨1, 1, 1⟩ [2, 1, 0, 1] = single 5 (.ofInt (-1)) := by
    rw [basisProduct_eq]
    rfl
  have nothing : basisProduct ⟨1, 1, 1⟩ [2, 0, 2] = empty := (products _ second).2.mpr ⟨2, by decide⟩
  exact ⟨first, value ▸ (products _ first).1, second, nothing ▸ (products _ second).1⟩

end Evaluation

end Bladewright
