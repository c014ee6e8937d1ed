import Bladewright.Proofs.Algebra.Coefficients
import Bladewright.Proofs.Algebra.GeometricProduct
import Bladewright.Proofs.Blade.Involution

/-!
Operations that rename blades and change signs: the involutions keep every blade, the complements replace it by what
it lacks.
-/
namespace Bladewright

open Finsupp

variable {α : Type} [CommRing α]

/-- A combination with its blades renamed, and with a sign in front of each coefficient. -/
noncomputable def relabel (rename : Nat → Nat) (sign : Nat → Int) (X : Nat →₀ α) : Nat →₀ α :=
  X.sum fun blade x => single (rename blade) (sign blade • x)

section

variable (rename : Nat → Nat) (sign : Nat → Int)

@[simp] theorem relabel_zero : relabel rename sign (0 : Nat →₀ α) = 0 := by
  simp [relabel]

theorem relabel_add (X Y : Nat →₀ α) : relabel rename sign (X + Y) = relabel rename sign X + relabel rename sign Y := by
  refine sum_add_index' ?_ ?_
  · simp
  · intro blade x y
    rw [smul_add, single_add]

@[simp] theorem relabel_single (blade : Nat) (x : α) :
    relabel rename sign (single blade x) = single (rename blade) (sign blade • x) := by
  simp [relabel]

end

theorem relabel_relabel (f g : Nat → Nat) (σ τ : Nat → Int) (X : Nat →₀ α) :
    relabel f σ (relabel g τ X) = relabel (fun blade => f (g blade)) (fun blade => σ (g blade) * τ blade) X := by
  induction X using induction_linear with
  | zero => simp
  | add X Y ih ih' => simp only [relabel_add, ih, ih']
  | single blade x => simp only [relabel_single, smul_smul]

variable {f g h : Nat → Nat} {w w' : Nat → Nat → Int} {σ τ υ : Nat → Int}

theorem relabel_convolve
    (blades : ∀ a b, f (a ^^^ b) = g a ^^^ h b) (signs : ∀ a b, σ (a ^^^ b) * w a b = w' (g a) (h b) * (τ a * υ b))
    (X Y : Nat →₀ α) : relabel f σ (convolve w X Y) = convolve w' (relabel g τ X) (relabel h υ Y) := by
  induction X using induction_linear with
  | zero => simp
  | add X X' ih ih' => simp only [convolve_add_left, relabel_add, ih, ih']
  | single a x =>
    induction Y using induction_linear with
    | zero => simp
    | add Y Y' ih ih' => simp only [convolve_add_right, relabel_add, ih, ih']
    | single b y =>
      have weights : σ (a ^^^ b) • (w a b • (x * y)) = w' (g a) (h b) • (τ a • x * υ b • y) := by
        rw [smul_mul_smul_comm, smul_smul, smul_smul, signs]
      rw [convolve_single, relabel_single, relabel_single, relabel_single, convolve_single, weights, blades]

theorem convolve_flip (w : Nat → Nat → Int) (X Y : Nat →₀ α) : convolve w X Y = convolve (fun b a => w a b) Y X := by
  induction X using induction_linear with
  | zero => simp
  | add X X' ih ih' => rw [convolve_add_left, convolve_add_right, ih, ih']
  | single a x =>
    induction Y using induction_linear with
    | zero => simp
    | add Y Y' ih ih' => rw [convolve_add_left, convolve_add_right, ih, ih']
    | single b y => rw [convolve_single, convolve_single, Nat.xor_comm, mul_comm]

theorem relabel_convolve_flip
    (blades : ∀ a b, f (a ^^^ b) = g a ^^^ h b) (signs : ∀ a b, σ (a ^^^ b) * w a b = w' (h b) (g a) * (υ b * τ a))
    (X Y : Nat →₀ α) : relabel f σ (convolve w X Y) = convolve w' (relabel h υ Y) (relabel g τ X) := by
  rw [convolve_flip w' (relabel h υ Y)]
  refine relabel_convolve blades (fun a b => ?_) X Y
  rw [signs, mul_comm (υ b)]

namespace Terms

open Blade

/-! ### The same terms -/

/-- The same blades with the same coefficients, in whatever order they are listed. -/
def Same (A B : Terms α) : Prop := ∀ blade, A.get? blade = B.get? blade

variable {A B : Terms α} {β : Type}

theorem same_iff : A.Same B ↔ (∀ blade, blade ∈ A.blades ↔ blade ∈ B.blades) ∧ A.combination = B.combination := by
  constructor
  · intro same
    refine ⟨fun blade => ?_, agrees_iff.mp fun blade => ?_⟩
    · rw [← isSome_get?, ← isSome_get?, same blade]
    · rw [coeff, coeff, same blade]
  · rintro ⟨blades, coefficients⟩ blade
    have value := agrees_iff.mpr coefficients blade
    have present := blades blade
    rw [← isSome_get?, ← isSome_get?] at present
    rw [coeff, coeff] at value
    cases left : A.get? blade with
    | none =>
      have absent : B.get? blade = none := by simpa [left] using present
      exact absent.symm
    | some c =>
      obtain ⟨d, right⟩ := Option.isSome_iff_exists.mp (present.mp (by simp [left]))
      rw [left, right] at value
      rw [right]
      exact congrArg some value

omit [CommRing α] in
theorem Same.trans {C : Terms α} (first : A.Same B) (second : B.Same C) : A.Same C :=
  fun blade => (first blade).trans (second blade)

/-! ### Changes of sign -/

omit [CommRing α] in
@[simp] theorem blades_map (f : Nat → α → β) (A : Terms α) : (A.map f).blades = A.blades := by
  simp [blades, map, Function.comp_def]

omit [CommRing α] in
@[simp] theorem blades_complement (full : Nat) (f : Nat → α → β) (A : Terms α) :
    (A.complement full f).blades = A.blades.map (full ^^^ ·) := by
  simp [blades, complement, Function.comp_def]

theorem combine_signed {sign : Nat → Int} (unit : ∀ blade, sign blade = 1 ∨ sign blade = -1) (rename : Nat → Nat)
    (entries : List (Nat × α)) :
    combine (entries.map fun e => (rename e.1, signed (sign e.1) e.2)) = relabel rename sign (combine entries) := by
  induction entries with
  | nil => simp
  | cons e rest ih =>
    rw [List.map_cons, combine_cons, combine_cons, relabel_add, relabel_single, ih]
    rcases unit e.1 with one | minus
    · simp [signed, one]
    · simp [signed, minus]

theorem signed_signed {sign : Int} (unit : sign = 1 ∨ sign = -1) (c : α) : signed sign (signed sign c) = c := by
  rcases unit with rfl | rfl <;> simp [signed]

@[simp] theorem combination_reverse (A : Terms α) :
    A.reverse.combination = relabel id (fun blade => reverseSign (grade blade)) A.combination :=
  combine_signed (fun blade => reverseSign_cases (grade blade)) id A.entries

@[simp] theorem combination_involute (A : Terms α) :
    A.involute.combination = relabel id (fun blade => involutionSign (grade blade)) A.combination :=
  combine_signed (fun blade => involutionSign_cases (grade blade)) id A.entries

@[simp] theorem combination_rightComplement (s : Signature) (A : Terms α) :
    (A.rightComplement s).combination = relabel (fullBlade s ^^^ ·) (rightSign (fullBlade s)) A.combination :=
  combine_signed (rightSign_cases (fullBlade s)) (fullBlade s ^^^ ·) A.entries

@[simp] theorem combination_leftComplement (s : Signature) (A : Terms α) :
    (A.leftComplement s).combination = relabel (fullBlade s ^^^ ·) (leftSign (fullBlade s)) A.combination :=
  combine_signed (leftSign_cases (fullBlade s)) (fullBlade s ^^^ ·) A.entries

/-! ### The outer product -/

/-- The sign of the outer product of two blades: zero if they share a basis vector. -/
def outerSign (a b : Nat) : Int := if a &&& b = 0 then reorderingSign a b else 0

@[simp] theorem weight_disjoint (s : Signature) : weight s .disjoint = outerSign := by
  funext a b
  by_cases apart : a &&& b = 0
  · simp [weight, Selection.disjoint, outerSign, apart, productSign, metricFactor_eq_prod]
  · simp [weight, Selection.disjoint, outerSign, apart]

@[simp] theorem combination_outerProduct (s : Signature) (A B : Terms α) :
    (A.outerProduct s B).combination = convolve outerSign A.combination B.combination := by
  rw [outerProduct_eq_multiply, combination_multiply, weight_disjoint]

omit [CommRing α] in
theorem mem_blades_outerProduct [Add α] [Mul α] [Neg α] {s : Signature} {blade : Nat} :
    blade ∈ (A.outerProduct s B).blades ↔ ∃ a ∈ A.blades, ∃ b ∈ B.blades, a &&& b = 0 ∧ a ^^^ b = blade := by
  rw [outerProduct_eq_multiply s, mem_blades_multiply]
  have nonzero {a b : Nat} (apart : a &&& b = 0) : productSign s a b ≠ 0 := by
    rw [productSign, apart]
    rcases reorderingSign_cases a b with sign | sign <;> simp [sign, metricFactor_eq_prod]
  constructor
  · rintro ⟨a, left, b, right, selected, -, same⟩
    exact ⟨a, left, b, right, by simpa [Selection.disjoint] using selected, same⟩
  · rintro ⟨a, left, b, right, apart, same⟩
    exact ⟨a, left, b, right, by simpa [Selection.disjoint] using apart, nonzero apart, same⟩

end Terms

end Bladewright
