import Bladewright.Proofs.Algebra.GradeParts
import Mathlib.GroupTheory.GroupAction.Ring
import Mathlib.LinearAlgebra.FiniteDimensional.Basic
import Mathlib.LinearAlgebra.Finsupp.Supported

/-!
Inverses in the algebra over a field. The reverse, divided by the product with the reverse, is an inverse on the right
if that product is a scalar other than zero (`geometricProduct_scale_reverse`).
-/
namespace Bladewright.Terms

open Blade Finsupp

variable {K : Type} [Field K] (s : Signature)

/-! ### Multiplication as a linear map -/

theorem convolve_smul_right (w : Nat → Nat → Int) (c : K) (X Y : Nat →₀ K) :
    convolve w X (c • Y) = c • convolve w X Y := by
  induction Y using induction_linear with
  | zero => simp
  | add Y Y' ih ih' => rw [smul_add, convolve_add_right, ih, ih', convolve_add_right, smul_add]
  | single b y =>
    induction X using induction_linear with
    | zero => simp
    | add X X' ih ih' => rw [convolve_add_left, ih, ih', convolve_add_left, smul_add]
    | single a x =>
      rw [smul_single, convolve_single, convolve_single, smul_single, smul_eq_mul, smul_eq_mul,
        mul_left_comm, mul_smul_comm]

noncomputable def multiplyLeft (X : Nat →₀ K) : (Nat →₀ K) →ₗ[K] (Nat →₀ K) where
  toFun Y := convolve (productSign s) X Y
  map_add' Y Y' := convolve_add_right _ X Y Y'
  map_smul' c Y := convolve_smul_right _ c X Y

def span (K : Type) [Field K] (n : Nat) : Submodule K (Nat →₀ K) := supported K K (Set.Iio (2 ^ n))

instance (n : Nat) : FiniteDimensional K (span K n) :=
  Module.Finite.equiv (supportedEquivFinsupp (Set.Iio (2 ^ n))).symm

variable {X Y : Nat →₀ K} {n : Nat}

theorem convolve_mem_span (w : Nat → Nat → Int) (left : X ∈ span K n)
    (right : Y ∈ span K n) : convolve w X Y ∈ span K n := by
  refine Submodule.sum_mem _ fun a present => Submodule.sum_mem _ fun b present' => ?_
  exact single_mem_supported K _ (Nat.xor_lt_two_pow (left present) (right present'))

theorem one_mem_span (n : Nat) : Finsupp.single 0 1 ∈ span K n :=
  Finsupp.single_mem_supported K 1 (Nat.two_pow_pos n)

theorem Within.combination_mem {A : Terms K} (within : A.Within n) : A.combination ∈ span K n :=
  fun _ present => within _ (mem_blades_of_support present)

theorem convolve_one_comm (small : Y ∈ span K n) (inverse : convolve (productSign s) X Y = Finsupp.single 0 1) :
    convolve (productSign s) Y X = Finsupp.single 0 1 := by
  have undone (Z : Nat →₀ K) : convolve (productSign s) X (convolve (productSign s) Y Z) = Z := by
    rw [← convolve_productSign_assoc, inverse, convolve_one_left]
  let times : span K n →ₗ[K] span K n :=
    (multiplyLeft s Y).restrict fun Z mem => convolve_mem_span (productSign s) small mem
  have injective : Function.Injective times := by
    intro Z Z' same
    have equal : convolve (productSign s) Y Z = convolve (productSign s) Y Z' := congrArg Subtype.val same
    exact Subtype.ext (by rw [← undone Z, equal, undone])
  -- multiplication by `Y` reaches the scalar one from an element that can only be `X`
  have surjective : Function.Surjective times := LinearMap.surjective_of_injective (V := span K n) injective
  obtain ⟨Z, reached⟩ := surjective ⟨_, one_mem_span n⟩
  have one : convolve (productSign s) Y Z = Finsupp.single 0 1 := congrArg Subtype.val reached
  have same : Z = X := by rw [← undone Z, one, convolve_one_right]
  rw [← same, one]

/-! ### Inverses of terms -/

theorem combination_scale {α : Type} [CommRing α] (A : Terms α) (c : α) :
    (A.scale c).combination = c • A.combination := by
  obtain ⟨entries, distinct⟩ := A
  show combine (entries.map fun e => (e.1, e.2 * c)) = c • combine entries
  clear distinct
  induction entries with
  | nil => simp
  | cons e entries ih => rw [List.map_cons, combine_cons, combine_cons, smul_add, ih, smul_single, smul_eq_mul,
      mul_comm]

theorem geometricProduct_scale_reverse {A : Terms K} {c : K}
    (scalar : (A.geometricProduct s A.reverse).Agrees (single 0 c))
    (nonzero : c ≠ 0) : (A.geometricProduct s (A.reverse.scale c⁻¹)).Agrees (single 0 1) := by
  rw [agrees_iff, combination_geometricProduct, combination_single] at scalar ⊢
  rw [combination_scale, convolve_smul_right, scalar, smul_single, smul_eq_mul, inv_mul_cancel₀ nonzero]

theorem leftInverse_of_rightInverse {A V : Terms K} (within : V.Within n)
    (inverse : (A.geometricProduct s V).Agrees (single 0 1)) : (V.geometricProduct s A).Agrees (single 0 1) := by
  rw [agrees_iff, combination_geometricProduct, combination_single] at inverse ⊢
  exact convolve_one_comm s within.combination_mem inverse

section

variable {A V : Terms K}

theorem geometricProduct_cancel (inverse : (A.geometricProduct s V).Agrees (single 0 1)) (X : Terms K) :
    ((X.geometricProduct s A).geometricProduct s V).Agrees X := by
  simp only [agrees_iff, combination_geometricProduct, combination_single] at inverse ⊢
  rw [convolve_productSign_assoc, inverse, convolve_one_right]

/-- With an inverse on its left, conjugation by an element keeps products. -/
theorem conjugation_multiplicative (inverse : (V.geometricProduct s A).Agrees (single 0 1)) (X Y : Terms K) :
    ((A.geometricProduct s (X.geometricProduct s Y)).geometricProduct s V).Agrees
      (((A.geometricProduct s X).geometricProduct s V).geometricProduct s
        ((A.geometricProduct s Y).geometricProduct s V)) := by
  simp only [agrees_iff, combination_geometricProduct, combination_single] at inverse ⊢
  generalize A.combination = a at inverse ⊢
  generalize V.combination = v at inverse ⊢
  generalize X.combination = x
  generalize Y.combination = y
  -- in the product of the conjugates, `v` meets `a` between `x` and `y`
  have meet : convolve (productSign s) v (convolve (productSign s) a (convolve (productSign s) y v)) =
      convolve (productSign s) y v := by
    rw [← convolve_productSign_assoc, inverse, convolve_one_left]
  simp only [convolve_productSign_assoc, meet]

end

end Bladewright.Terms
