import Bladewright.Proofs.Algebra.Relabel
import Bladewright.Proofs.Evaluation.Builtins

/-!
The reverse and the grade involution against products. Both only change signs, so each undoes itself.
-/
namespace Bladewright.Terms

open Blade Evaluation

variable {α : Type} [CommRing α]

/-! ### Undone by themselves -/

omit [CommRing α] in
theorem map_map_of_inverse {f g : Nat → α → α} (inverse : ∀ blade c, g blade (f blade c) = c) (A : Terms α) :
    (A.map f).map g = A := by
  obtain ⟨entries, distinct⟩ := A
  simp [map, Function.comp_def, inverse]

@[simp] theorem reverse_reverse (A : Terms α) : A.reverse.reverse = A :=
  map_map_of_inverse (fun blade => signed_signed (reverseSign_cases (grade blade))) A

@[simp] theorem involute_involute (A : Terms α) : A.involute.involute = A :=
  map_map_of_inverse (fun blade => signed_signed (involutionSign_cases (grade blade))) A

/-! ### The same terms, with signs changed -/

@[simp] theorem blades_reverse (A : Terms α) : A.reverse.blades = A.blades := blades_map _ A

@[simp] theorem blades_involute (A : Terms α) : A.involute.blades = A.blades := blades_map _ A

theorem Same.reverse {A B : Terms α} (same : A.Same B) : A.reverse.Same B.reverse := by
  obtain ⟨blades, coefficients⟩ := same_iff.mp same
  refine same_iff.mpr ⟨by simpa using blades, ?_⟩
  rw [combination_reverse, combination_reverse, coefficients]

/-! ### Products -/

variable (s : Signature)

theorem reverse_multiply {select flipped : Selection} (flip : ∀ a b, select a b = flipped b a) (A B : Terms α) :
    (multiply s select A B).reverse.Same (multiply s flipped B.reverse A.reverse) := by
  refine same_iff.mpr ⟨fun blade => ?_, ?_⟩
  · rw [blades_reverse, mem_blades_multiply, mem_blades_multiply, blades_reverse, blades_reverse]
    constructor
    · rintro ⟨a, left, b, right, selected, nonzero, rfl⟩
      exact ⟨b, right, a, left, flip a b ▸ selected, productSign_comm_ne_zero nonzero, Nat.xor_comm b a⟩
    · rintro ⟨b, right, a, left, selected, nonzero, rfl⟩
      exact ⟨a, left, b, right, flip a b ▸ selected, productSign_comm_ne_zero nonzero, Nat.xor_comm a b⟩
  · simp only [combination_reverse, combination_multiply]
    refine relabel_convolve_flip (fun _ _ => rfl) (fun a b => ?_) _ _
    by_cases selected : select a b = true
    · simpa [weight, selected, ← flip a b] using reverseSign_productSign s a b
    · simp [weight, selected, ← flip a b]

theorem involute_multiply (select : Selection) (A B : Terms α) :
    (multiply s select A B).involute.Same (multiply s select A.involute B.involute) := by
  refine same_iff.mpr ⟨fun blade => ?_, ?_⟩
  · rw [blades_involute, mem_blades_multiply, mem_blades_multiply, blades_involute, blades_involute]
  · simp only [combination_involute, combination_multiply]
    refine relabel_convolve (fun _ _ => rfl) (fun a b => ?_) _ _
    rw [involutionSign_xor, mul_comm]
    rfl

theorem disjoint_symmetric (a b : Nat) : Selection.disjoint a b = Selection.disjoint b a := by
  rw [Selection.disjoint, Selection.disjoint, Nat.and_comm]

theorem reverse_outerProduct (A B : Terms α) :
    (A.outerProduct s B).reverse.Same (B.reverse.outerProduct s A.reverse) := by
  simp only [outerProduct_eq_multiply]
  exact reverse_multiply s disjoint_symmetric A B

theorem involute_outerProduct (A B : Terms α) :
    (A.outerProduct s B).involute.Same (A.involute.outerProduct s B.involute) := by
  simp only [outerProduct_eq_multiply]
  exact involute_multiply s .disjoint A B

/-- The reverse undoes itself and exchanges the factors of a geometric and of an outer product; the grade involution
undoes itself and keeps both products. So the conjugate exchanges their factors: a call for the conjugate of a product
of two trees denotes the same terms as the product of the two conjugates in the opposite order. -/
theorem involutions_of_products (A B : Terms α) :
    A.reverse.reverse = A ∧ A.involute.involute = A ∧
    (A.geometricProduct s B).reverse.Same (B.reverse.geometricProduct s A.reverse) ∧
    (A.outerProduct s B).reverse.Same (B.reverse.outerProduct s A.reverse) ∧
    (A.geometricProduct s B).involute.Same (A.involute.geometricProduct s B.involute) ∧
    (A.outerProduct s B).involute.Same (A.involute.outerProduct s B.involute) ∧
    ∀ (table : Table) (E : Engine α) (x y : Tree), table.KeepsBuiltins →
      Denotes table E s x A → Denotes table E s y B →
      ∀ product ∈ ["geometric_product", "outer_product"], ∃ C D,
        Denotes table E s (.call "conjugate" [.call product [x, y]]) C ∧
        Denotes table E s (.call product [.call "conjugate" [y], .call "conjugate" [x]]) D ∧ C.Same D := by
  refine ⟨reverse_reverse A, involute_involute A, reverse_multiply s (fun _ _ => rfl) A B,
    reverse_outerProduct s A B, involute_multiply s _ A B, involute_outerProduct s A B, ?_⟩
  intro table E x y kept left right product listed
  have left' := left.conjugate kept
  have right' := right.conjugate kept
  rcases List.mem_pair.mp listed with rfl | rfl
  · exact ⟨_, _, (left.geometricProduct kept right).conjugate kept, right'.geometricProduct kept left',
      (involute_multiply s _ A B).reverse.trans (reverse_multiply s (fun _ _ => rfl) A.involute B.involute)⟩
  · exact ⟨_, _, (left.outerProduct kept right).conjugate kept, right'.outerProduct kept left',
      (involute_outerProduct s A B).reverse.trans (reverse_outerProduct s A.involute B.involute)⟩

theorem conjugate_of_product : ∃ C D,
    Denotes .builtin integerEngine ⟨1, 1, 0⟩
      (.call "conjugate" [.call "geometric_product" [.blade [0], .blade [0, 1]]]) C ∧
    Denotes .builtin integerEngine ⟨1, 1, 0⟩
      (.call "geometric_product" [.call "conjugate" [.blade [0, 1]], .call "conjugate" [.blade [0]]]) D ∧
    C.Same D ∧ C.entries = [(2, -1)] := by
  have vector : Denotes .builtin integerEngine ⟨1, 1, 0⟩ (.blade [0]) (single 1 1) := ⟨_, rfl, rfl⟩
  have bivector : Denotes .builtin integerEngine ⟨1, 1, 0⟩ (.blade [0, 1]) (single 3 1) := ⟨_, rfl, rfl⟩
  have value : Denotes .builtin integerEngine ⟨1, 1, 0⟩
      (.call "conjugate" [.call "geometric_product" [.blade [0], .blade [0, 1]]]) (single 2 (-1)) := ⟨_, rfl, rfl⟩
  obtain ⟨-, -, -, -, -, -, calls⟩ := involutions_of_products ⟨1, 1, 0⟩ (single 1 (1 : ℤ)) (single 3 1)
  obtain ⟨C, D, left, right, same⟩ :=
    calls _ _ _ _ Table.keepsBuiltins_builtin vector bivector "geometric_product" (by simp)
  obtain rfl : C = single 2 (-1) := Except.ok.inj (value.outcome left.ends)
  exact ⟨_, D, left, right, same, rfl⟩

end Bladewright.Terms
