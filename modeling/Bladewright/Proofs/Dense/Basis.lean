import Bladewright.Dense
import Bladewright.Proofs.Evaluation.BasisProducts

/-!
Blades by name in the dense layout. An evaluated blade has all its basis vectors checked before they are multiplied; a
row is made by multiplying them one by one, which stops where a degenerate one is squared (`contractIndices_append`).
-/
namespace Bladewright

open List Evaluation

namespace Blade

variable {s : Signature}

theorem contractIndices_cons (s : Signature) (blade : Nat) (sign : ℤ) (i : Nat) (rest : List Nat) :
    contractIndices s blade sign ((i :: rest).map Int.ofNat) =
      if blade.testBit i = true ∧ s.dimension ≤ i then .error (.outOfRange i s)
      else if productSign s blade (2 ^ i) = 0 then .ok (blade ^^^ 2 ^ i, 0)
      else contractIndices s (blade ^^^ 2 ^ i) (sign * productSign s blade (2 ^ i)) (rest.map Int.ofNat) := by
  show (checkedProduct s blade (2 ^ i) >>= _) = _
  rw [checkedProduct_two_pow]
  split
  · rfl
  · rfl

variable {before factors : List Nat} {sign : ℤ} {blade : Nat}

theorem contractIndices_append (inside : ∀ i ∈ before, i < s.dimension) (rest : List Nat)
    (blade : Nat) (nonzero : sign ≠ 0) :
    contractIndices s blade sign ((before ++ rest).map Int.ofNat) =
      if (contract s blade sign before).2 = 0 then .ok (contract s blade sign before)
      else contractIndices s (contract s blade sign before).1 (contract s blade sign before).2
        (rest.map Int.ofNat) := by
  induction before generalizing blade sign with
  | nil => exact (if_neg nonzero).symm
  | cons i before ih =>
    rw [forall_mem_cons] at inside
    rw [cons_append, contractIndices_cons, if_neg (by omega), contract_cons]
    by_cases factor : productSign s blade (2 ^ i) = 0
    · simp [factor]
    · simp only [factor, if_false]
      exact ih inside.2 (blade ^^^ 2 ^ i) (mul_ne_zero nonzero factor)

theorem contract_within (inside : ∀ i ∈ factors, i < s.dimension)
    (small : blade < s.size) (unit : sign = 1 ∨ sign = -1) :
    (contract s blade sign factors).1 < s.size ∧
      ((contract s blade sign factors).2 = 1 ∨ (contract s blade sign factors).2 = -1 ∨
        (contract s blade sign factors).2 = 0) := by
  induction factors generalizing blade sign with
  | nil => exact ⟨small, unit.imp_right .inl⟩
  | cons i factors ih =>
    rw [forall_mem_cons] at inside
    have next : blade ^^^ 2 ^ i < s.size := Nat.xor_lt_two_pow small (Nat.pow_lt_pow_right (by omega) inside.1)
    rw [contract_cons]
    split
    · exact ⟨next, .inr (.inr rfl)⟩
    · rename_i factor
      refine ih inside.2 next ?_
      rcases unit with rfl | rfl <;> rcases productSign_unit factor with one | minus <;> simp [*]

theorem canonicalize_append (inside : ∀ i ∈ before, i < s.dimension) (rest : List Nat) :
    canonicalize (some s) ((before ++ rest).map Int.ofNat) =
      if (ofProduct s before).2 = 0 then .ok (ofProduct s before)
      else contractIndices s (ofProduct s before).1 (ofProduct s before).2 (rest.map Int.ofNat) :=
  contractIndices_append inside rest 0 one_ne_zero

theorem ofProduct_within (inside : ∀ i ∈ factors, i < s.dimension) : (ofProduct s factors).1 < s.size ∧
      ((ofProduct s factors).2 = 1 ∨ (ofProduct s factors).2 = -1 ∨ (ofProduct s factors).2 = 0) :=
  contract_within inside (Nat.two_pow_pos s.dimension) (.inl rfl)

/-- Once a basis vector outside the algebra has been taken up, it stays. -/
theorem size_le_of_contractIndices {j : Nat} (outside : s.dimension ≤ j)
    (present : blade.testBit j = true) {product : Nat × ℤ}
    (contracted : contractIndices s blade sign (factors.map Int.ofNat) = .ok product) : s.size ≤ product.1 := by
  have large {b : Nat} (present : b.testBit j = true) : s.size ≤ b :=
    (Nat.pow_le_pow_right (by omega) outside).trans (Nat.ge_two_pow_of_testBit present)
  induction factors generalizing blade sign with
  | nil =>
    cases contracted
    exact large present
  | cons i factors ih =>
    rw [contractIndices_cons] at contracted
    split at contracted
    · cases contracted
    · rename_i allowed
      have differ : i ≠ j := by
        rintro rfl
        exact allowed ⟨present, outside⟩
      have next : (blade ^^^ 2 ^ i).testBit j = true := by simp [present, differ]
      split at contracted
      · cases contracted
        exact large next
      · exact ih next contracted

end Blade

namespace Dense

open Bladewright.Blade

variable {s : Signature}

/-- A row of whole numbers, given blade by blade. -/
def wholeRow (s : Signature) (coefficient : Nat → ℤ) : Tensor :=
  ⟨.float32, [s.size], (List.range s.size).map fun blade => .real (.finite (coefficient blade : ℚ))⟩

theorem ofInt_unit {sign : ℤ} (unit : sign = 1 ∨ sign = -1 ∨ sign = 0) :
    (elementArithmetic .default .default).ofInt sign = .real (.finite (sign : ℚ)) := by
  rcases unit with rfl | rfl | rfl <;> decide +kernel

theorem basis_of_canonicalize {factors : List Int} {product : Nat × ℤ}
    (canonical : canonicalize (some s) factors = .ok product) (unit : product.2 = 1 ∨ product.2 = -1 ∨ product.2 = 0)
    (small : product.1 < s.size) :
    basis s factors = .ok (wholeRow s fun blade => if blade = product.1 then product.2 else 0) := by
  have entry (blade : Nat) : (List.lookup blade [(product.1, (elementArithmetic .default .default).ofInt product.2)]).getD
      (elementArithmetic .default .default).zero =
        .real (.finite ((if blade = product.1 then product.2 else 0 : ℤ) : ℚ)) := by
    by_cases same : blade = product.1
    · simp [same, ofInt_unit unit]
    · rw [lookup_cons, beq_eq_false_iff_ne.mpr same, if_neg same]
      rfl
  rw [basis, canonical]
  show (if s.size ≤ product.1 then _ else _) = _
  rw [if_neg (by omega)]
  exact congrArg (fun row => Except.ok (Tensor.mk .float32 [s.size] row)) (map_congr_left fun b _ => entry b)

variable {factors : List Nat}

theorem basis_of_inside (inside : ∀ i ∈ factors, i < s.dimension) : basis s (factors.map Int.ofNat) =
      .ok (wholeRow s fun b => if b = (ofProduct s factors).1 then (ofProduct s factors).2 else 0) := by
  obtain ⟨small, unit⟩ := ofProduct_within inside
  have canonical := canonicalize_append inside []
  rw [append_nil] at canonical
  refine basis_of_canonicalize (canonical.trans ?_) unit small
  split
  · rfl
  · rfl

section Outside

variable {before after : List Nat} {i : Nat} (inside : ∀ j ∈ before, j < s.dimension)
include inside

theorem basis_of_zero (zero : (ofProduct s before).2 = 0) :
    basis s ((before ++ after).map Int.ofNat) = .ok (wholeRow s fun _ => 0) := by
  have canonical := canonicalize_append inside after
  rw [if_pos zero] at canonical
  rw [basis_of_canonicalize canonical (.inr (.inr zero)) (ofProduct_within inside).1]
  refine congrArg (fun row => Except.ok (wholeRow s row)) (funext fun b => ?_)
  rw [zero, ite_self]

theorem basis_of_outside (nonzero : (ofProduct s before).2 ≠ 0) (outside : s.dimension ≤ i) :
    ∃ e, basis s ((before ++ i :: after).map Int.ofNat) = .error e := by
  have absent : (ofProduct s before).1.testBit i = false :=
    Nat.testBit_lt_two_pow ((ofProduct_within inside).1.trans_le (Nat.pow_le_pow_right (by omega) outside))
  have factor : productSign s (ofProduct s before).1 (2 ^ i) ≠ 0 := by
    rw [Ne, productSign_two_pow_eq_zero, absent]
    simp
  rw [basis, canonicalize_append inside, if_neg nonzero, contractIndices_cons, absent, if_neg (by simp), if_neg factor]
  cases contracted : contractIndices s ((ofProduct s before).1 ^^^ 2 ^ i)
      ((ofProduct s before).2 * productSign s (ofProduct s before).1 (2 ^ i)) (after.map Int.ofNat) with
  | error e => exact ⟨_, rfl⟩
  | ok product =>
    have large := size_le_of_contractIndices outside (by simp [absent]) contracted
    exact ⟨.host .indexError, if_pos large⟩

end Outside

theorem evaluate_blade_outside (outside : ∃ i ∈ factors, s.dimension ≤ i) :
    ∃ e, evaluate symbolic s (.blade (factors.map Int.ofNat)) = .error e := by
  obtain ⟨i, mem, beyond⟩ := outside
  have found : (factors.map Int.ofNat).find? (fun i => (s.dimension : Int) ≤ i) ≠ none := by
    rw [Ne, List.find?_eq_none]
    intro inside
    exact inside i (mem_map_of_mem mem) (by simpa using beyond)
  obtain ⟨j, first⟩ := Option.ne_none_iff_exists'.mp found
  refine ⟨.missingBasis (factors.map Int.ofNat) j s, ?_⟩
  rw [evaluate, bladeTerms, first]
  rfl

theorem exists_first_outside (outside : ∃ i ∈ factors, s.dimension ≤ i) :
    ∃ before i after, factors = before ++ i :: after ∧ (∀ j ∈ before, j < s.dimension) ∧ s.dimension ≤ i := by
  have found : factors.find? (fun i => s.dimension ≤ i) ≠ none := by
    obtain ⟨i, mem, beyond⟩ := outside
    rw [Ne, List.find?_eq_none]
    exact fun inside => inside i mem (by simpa using beyond)
  obtain ⟨i, first⟩ := Option.ne_none_iff_exists'.mp found
  obtain ⟨beyond, before, after, split, inside⟩ := List.find?_eq_some_iff_append.mp first
  exact ⟨before, i, after, split, fun j mem => by simpa using inside j mem, by simpa using beyond⟩

theorem ofProduct_ne_zero {before : List Nat} :
    (ofProduct s before).2 ≠ 0 ↔ ∀ j ∈ before, s.square j = 0 → before.count j < 2 := by
  rw [Ne, ofProduct, contract_sign s before one_ne_zero]
  simp

theorem basis_fails_iff : (∃ e, basis s (factors.map Int.ofNat) = .error e) ↔
      ∃ before i after, factors = before ++ i :: after ∧ (∀ j ∈ before, j < s.dimension) ∧ s.dimension ≤ i ∧
        ∀ j ∈ before, s.square j = 0 → before.count j < 2 := by
  constructor
  · rintro ⟨e, failed⟩
    have outside : ∃ i ∈ factors, s.dimension ≤ i := by
      by_contra inside
      rw [basis_of_inside (by simpa using inside)] at failed
      cases failed
    obtain ⟨before, i, after, rfl, inside, beyond⟩ := exists_first_outside outside
    refine ⟨before, i, after, rfl, inside, beyond, ofProduct_ne_zero.mp fun zero => ?_⟩
    rw [basis_of_zero inside zero] at failed
    cases failed
  · rintro ⟨before, i, after, rfl, inside, beyond, once⟩
    exact basis_of_outside inside (ofProduct_ne_zero.mpr once) beyond

theorem basis_outside_eq_zero (outside : ∃ i ∈ factors, s.dimension ≤ i) {row : Tensor}
    (made : basis s (factors.map Int.ofNat) = .ok row) : row = wholeRow s fun _ => 0 := by
  obtain ⟨before, i, after, rfl, inside, beyond⟩ := exists_first_outside outside
  by_cases zero : (ofProduct s before).2 = 0
  · rw [basis_of_zero inside zero] at made
    exact (Except.ok.inj made).symm
  · have refused : ∃ e, basis s ((before ++ i :: after).map Int.ofNat) = .error e :=
      basis_of_outside inside zero beyond
    obtain ⟨e, failed⟩ := refused
    rw [failed] at made
    cases made

/-- A blade by name, as a value and as a row. It has a value if and only if all its basis vectors are in the algebra,
and then its row has the coefficients of the value. The row is refused if and only if a basis vector outside the
algebra comes before any degenerate one has come twice; where a name without a value has a row, the row is zero. -/
theorem basisNamed_eq_value (s : Signature) {text : String} {factors : List Nat}
    (named : parseName text = .ok (some factors)) :
    ((∃ e, evaluate symbolic s (.blade (factors.map Int.ofNat)) = .error e) ↔
      ∃ i ∈ factors, s.dimension ≤ i) ∧
    (∀ A, evaluate symbolic s (.blade (factors.map Int.ofNat)) = .ok A →
      ∃ coefficient : Nat → ℤ, basisNamed s text = .ok (wholeRow s coefficient) ∧
        ∀ blade, A.coeff blade = .ofInt (coefficient blade)) ∧
    ((∃ e, basisNamed s text = .error e) ↔
      ∃ before i after, factors = before ++ i :: after ∧ (∀ j ∈ before, j < s.dimension) ∧ s.dimension ≤ i ∧
        ∀ j ∈ before, s.square j = 0 → before.count j < 2) ∧
    ((∃ e, evaluate symbolic s (.blade (factors.map Int.ofNat)) = .error e) →
      ∀ row, basisNamed s text = .ok row → row = wholeRow s fun _ => 0) := by
  have made : basisNamed s text = basis s (factors.map Int.ofNat) := by
    rw [basisNamed, named]
    rfl
  have fails : (∃ e, evaluate symbolic s (.blade (factors.map Int.ofNat)) = .error e) ↔
      ∃ i ∈ factors, s.dimension ≤ i := by
    refine ⟨fun failed => ?_, evaluate_blade_outside⟩
    by_contra inside
    obtain ⟨e, failed⟩ := failed
    rw [evaluate_blade s factors (by simpa using inside)] at failed
    cases failed
  rw [made]
  refine ⟨fails, fun A value => ?_, basis_fails_iff, fun failed row => basis_outside_eq_zero (fails.mp failed)⟩
  have inside : ∀ i ∈ factors, i < s.dimension := by
    by_contra outside
    obtain ⟨e, failed⟩ := fails.mpr (by simpa using outside)
    rw [failed] at value
    cases value
  rw [evaluate_blade s factors inside] at value
  refine ⟨_, basis_of_inside inside, fun blade => ?_⟩
  rw [← Except.ok.inj value, Terms.coeff_ofSigned]

theorem basisNamed_eq_value_degenerate : parseName "e1321" = .ok (some [0, 2, 1, 0]) ∧
    (∃ coefficient : Nat → ℤ, basisNamed ⟨1, 0, 2⟩ "e1321" = .ok (wholeRow ⟨1, 0, 2⟩ coefficient) ∧
      ∀ blade, (Terms.ofSigned (6, -1)).coeff blade = .ofInt (coefficient blade)) ∧
    parseName "e343" = .ok (some [2, 3, 2]) ∧ ∃ e, basisNamed ⟨1, 0, 2⟩ "e343" = .error e := by
  have inner : parseName "e1321" = .ok (some [0, 2, 1, 0]) := rfl
  have outer : parseName "e343" = .ok (some [2, 3, 2]) := rfl
  have value := evaluate_blade ⟨1, 0, 2⟩ [0, 2, 1, 0] (by decide)
  have product : ofProduct ⟨1, 0, 2⟩ [0, 2, 1, 0] = (6, -1) := by decide +kernel
  rw [product] at value
  exact ⟨inner, (basisNamed_eq_value ⟨1, 0, 2⟩ inner).2.1 _ value, outer,
    (basisNamed_eq_value ⟨1, 0, 2⟩ outer).2.2.1.mpr ⟨[2], 3, [2], rfl, by decide, by decide, by decide⟩⟩

/-- A basis vector outside the algebra is not noticed behind the square of a degenerate one. -/
theorem basisNamed_after_square :
    parseName "e112" = .ok (some [0, 0, 1]) ∧ basisNamed ⟨0, 0, 1⟩ "e112" = .ok (wholeRow ⟨0, 0, 1⟩ fun _ => 0) ∧
      ∃ e, evaluate symbolic ⟨0, 0, 1⟩ (.blade [0, 0, 1]) = .error e := by
  have named : parseName "e112" = .ok (some [0, 0, 1]) := rfl
  have zero : (ofProduct ⟨0, 0, 1⟩ [0, 0]).2 = 0 := by decide +kernel
  have outside : ∃ i ∈ [0, 0, 1], (⟨0, 0, 1⟩ : Signature).dimension ≤ i := ⟨1, by decide⟩
  refine ⟨named, ?_, evaluate_blade_outside outside⟩
  rw [basisNamed, named]
  show basis ⟨0, 0, 1⟩ (([0, 0] ++ [1]).map Int.ofNat) = _
  exact basis_of_zero (by decide) zero

end Dense

end Bladewright
