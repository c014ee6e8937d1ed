import Bladewright.Proofs.Algebra.Contractions
import Mathlib.Data.Nat.Bitwise

/-!
The scalar product as a trace. It multiplies equal blades only, so its factors can be exchanged, and a triple of
blades contributes to it if their exclusive or is the scalar blade, however the three are grouped.
-/
namespace Bladewright

namespace Blade

theorem grade_eq_zero {blade : Nat} (scalar : grade blade = 0) : blade = 0 := by
  rw [← card_support, Finset.card_eq_zero] at scalar
  rw [eq_zero_iff_testBit]
  intro i
  have outside : i ∉ support blade := by simp [scalar]
  simpa [mem_support] using outside

theorem eq_of_scalar {a b : Nat} (selected : Terms.Selection.scalar a b = true) : a = b :=
  Nat.xor_eq_zero_iff.mp (grade_eq_zero ((Terms.scalar_iff a b).mp selected))

end Blade

namespace Terms

open Blade

variable {α : Type} [CommRing α] (s : Signature)

theorem scalar_flip (a b : Nat) : Selection.scalar a b = Selection.scalar b a := by
  rw [Bool.eq_iff_iff, scalar_iff, scalar_iff, Nat.xor_comm]

theorem reverse_scalarProduct (A B : Terms α) : (A.scalarProduct s B).reverse.Same (A.scalarProduct s B) := by
  refine same_iff.mpr ⟨fun blade => by rw [blades_reverse], ?_⟩
  rw [combination_reverse, scalarProduct, combination_multiply]
  generalize A.combination = X
  generalize B.combination = Y
  induction X using Finsupp.induction_linear with
  | zero => simp
  | add X X' ih ih' => rw [convolve_add_left, relabel_add, ih, ih']
  | single a x =>
    induction Y using Finsupp.induction_linear with
    | zero => simp
    | add Y Y' ih ih' => rw [convolve_add_right, relabel_add, ih, ih']
    | single b y =>
      by_cases selected : Selection.scalar a b = true
      · obtain rfl := eq_of_scalar selected
        have scalar : reverseSign (grade 0) = 1 := by decide
        rw [convolve_single, Nat.xor_self, relabel_single, scalar, one_smul, id]
      · simp [weight, selected]

theorem scalarProduct_comm (A B : Terms α) : (A.scalarProduct s B).Same (B.scalarProduct s A) := by
  refine same_iff.mpr ⟨fun blade => ?_, ?_⟩
  · simp only [scalarProduct, mem_blades_multiply]
    constructor
    · rintro ⟨a, left, b, right, selected, nonzero, rfl⟩
      exact ⟨b, right, a, left, scalar_flip a b ▸ selected, productSign_comm_ne_zero nonzero, Nat.xor_comm b a⟩
    · rintro ⟨b, right, a, left, selected, nonzero, rfl⟩
      exact ⟨a, left, b, right, scalar_flip b a ▸ selected, productSign_comm_ne_zero nonzero, Nat.xor_comm a b⟩
  · rw [scalarProduct, scalarProduct, combination_multiply, combination_multiply, convolve_flip]
    refine convolve_congr fun b _ a _ => ?_
    by_cases selected : Selection.scalar a b = true
    · rw [eq_of_scalar selected]
    · simp [weight, selected, scalar_flip b a]

theorem sameTriples_scalar : SameTriples .all .scalar .all .scalar := by
  intro a b c
  simp only [Selection.all, true_and, scalar_iff, Nat.xor_assoc]

theorem scalarProduct_assoc (A B C : Terms α) :
    ((A.geometricProduct s B).scalarProduct s C).Same (A.scalarProduct s (B.geometricProduct s C)) :=
  multiply_assoc s sameTriples_scalar A B C

/-- The scalar product is a trace, in every signature and over every commutative ring: its factors can be exchanged, of
three factors any two neighbours can be multiplied first, also around the end, and the reverses of two factors have the
scalar product of the factors. Both sides have the same blades, so also the scalar blade with coefficient zero. -/
theorem scalarProduct_trace (A B C : Terms α) :
    (A.scalarProduct s B).Same (B.scalarProduct s A) ∧
    ((A.geometricProduct s B).scalarProduct s C).Same (A.scalarProduct s (B.geometricProduct s C)) ∧
    (A.scalarProduct s (B.geometricProduct s C)).Same (B.scalarProduct s (C.geometricProduct s A)) ∧
    (A.reverse.scalarProduct s B.reverse).Same (A.scalarProduct s B) := by
  refine ⟨scalarProduct_comm s A B, scalarProduct_assoc s A B C, ?_, ?_⟩
  · have around : (A.scalarProduct s (B.geometricProduct s C)).Same ((B.geometricProduct s C).scalarProduct s A) :=
      scalarProduct_comm s _ _
    exact around.trans (scalarProduct_assoc s B C A)
  · have flipped : (B.scalarProduct s A).reverse.Same (A.reverse.scalarProduct s B.reverse) :=
      reverse_multiply s scalar_flip B A
    intro blade
    rw [← flipped blade, reverse_scalarProduct s B A blade, scalarProduct_comm s B A blade]

end Terms

end Bladewright
