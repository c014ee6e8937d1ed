import Bladewright.Algebra.Product
import Bladewright.Proofs.Blade.Sign
import Mathlib.Data.Finsupp.SMul
import Mathlib.Algebra.BigOperators.Finsupp.Basic
import Mathlib.Tactic.NoncommRing

/-!
Terms as linear combinations of blades. Over a commutative ring, terms denote the combination of their blades
(`combination`), in which an absent blade and one with coefficient zero are the same.
-/
namespace Bladewright

open List Finsupp

variable {α : Type} [CommRing α]

/-! ### Products with weights -/

/-- The product of combinations in which the product of two blades is their exclusive or, times a
weight. -/
noncomputable def convolve (weight : Nat → Nat → Int) (X Y : Nat →₀ α) : Nat →₀ α :=
  X.sum fun a x => Y.sum fun b y => single (a ^^^ b) (weight a b • (x * y))

section

variable (weight : Nat → Nat → Int)

@[simp] theorem convolve_zero_left (Y : Nat →₀ α) : convolve weight 0 Y = 0 := by
  simp [convolve]

@[simp] theorem convolve_zero_right (X : Nat →₀ α) : convolve weight X 0 = 0 := by
  simp [convolve]

theorem convolve_add_left (X X' Y : Nat →₀ α) :
    convolve weight (X + X') Y = convolve weight X Y + convolve weight X' Y := by
  refine sum_add_index' ?_ ?_
  · simp
  · intro a x x'
    simp [add_mul, smul_add, sum_add]

theorem convolve_add_right (X Y Y' : Nat →₀ α) :
    convolve weight X (Y + Y') = convolve weight X Y + convolve weight X Y' := by
  unfold convolve
  rw [← sum_add]
  refine sum_congr fun a _ => sum_add_index' ?_ ?_
  · simp
  · intro b y y'
    simp [mul_add, smul_add]

@[simp] theorem convolve_single (a b : Nat) (x y : α) :
    convolve weight (single a x) (single b y) = single (a ^^^ b) (weight a b • (x * y)) := by
  simp [convolve]

end

theorem convolve_convolve {w₁ w₂ w₃ w₄ : Nat → Nat → Int}
    (agree : ∀ a b c, w₁ a b * w₂ (a ^^^ b) c = w₃ b c * w₄ a (b ^^^ c)) (X Y Z : Nat →₀ α) :
    convolve w₂ (convolve w₁ X Y) Z = convolve w₄ X (convolve w₃ Y Z) := by
  induction X using induction_linear with
  | zero => simp
  | add X X' ih ih' => simp only [convolve_add_left, ih, ih']
  | single a x =>
    induction Y using induction_linear with
    | zero => simp
    | add Y Y' ih ih' => simp only [convolve_add_left, convolve_add_right, ih, ih']
    | single b y =>
      induction Z using induction_linear with
      | zero => simp
      | add Z Z' ih ih' => simp only [convolve_add_right, ih, ih']
      | single c z =>
        have weights : w₂ (a ^^^ b) c • (w₁ a b • (x * y) * z) = w₄ a (b ^^^ c) • (x * w₃ b c • (y * z)) := by
          rw [smul_mul_assoc, mul_smul_comm, smul_smul, smul_smul, mul_comm (w₂ _ _), agree, mul_comm (w₃ _ _),
            mul_assoc]
        simp only [convolve_single, weights, Nat.xor_assoc]

namespace Terms

open Bladewright.Blade

/-! ### The combination of terms -/

noncomputable def combine (entries : List (Nat × α)) : Nat →₀ α :=
  (entries.map fun e => Finsupp.single e.1 e.2).sum

noncomputable def combination (A : Terms α) : Nat →₀ α := combine A.entries

/-- Terms with the same coefficients, where an absent blade has coefficient zero. -/
def Agrees (A B : Terms α) : Prop := ∀ blade, A.coeff blade = B.coeff blade

@[simp] theorem combine_nil : combine ([] : List (Nat × α)) = 0 := rfl

@[simp] theorem combine_cons (e : Nat × α) (entries : List (Nat × α)) :
    combine (e :: entries) = Finsupp.single e.1 e.2 + combine entries := by
  simp [combine]

private theorem combine_apply_of_not_mem {entries : List (Nat × α)} {blade : Nat}
    (absent : blade ∉ entries.map (·.1)) : combine entries blade = 0 := by
  induction entries with
  | nil => simp
  | cons e rest ih =>
    simp only [map_cons, mem_cons, not_or] at absent
    simp [ih absent.2, Ne.symm absent.1]

theorem combination_apply (A : Terms α) (blade : Nat) : A.combination blade = A.coeff blade := by
  obtain ⟨entries, distinct⟩ := A
  simp only [combination, coeff, get?]
  induction entries with
  | nil => simp
  | cons e rest ih =>
    obtain ⟨b, c⟩ := e
    rw [map_cons, nodup_cons] at distinct
    by_cases same : blade = b
    · subst same
      simp [combine_apply_of_not_mem distinct.1]
    · have other : (blade == b) = false := by simpa using same
      simp [lookup_cons, other, Ne.symm same, ih distinct.2]

theorem agrees_iff {A B : Terms α} : A.Agrees B ↔ A.combination = B.combination := by
  simp only [Agrees, ← combination_apply, Finsupp.ext_iff]

@[simp] theorem combination_empty : (empty : Terms α).combination = 0 := rfl

@[simp] theorem combination_single (blade : Nat) (c : α) :
    (Terms.single blade c).combination = Finsupp.single blade c := by
  simp [combination, Terms.single]

theorem combine_accumulate (blade : Nat) (c : α) (entries : List (Nat × α)) :
    combine (accumulate (· + ·) blade c entries) = combine entries + Finsupp.single blade c := by
  induction entries with
  | nil => simp [accumulate]
  | cons e rest ih =>
    obtain ⟨b, d⟩ := e
    by_cases same : b = blade
    · subst same
      simp only [accumulate, if_true, combine_cons, Finsupp.single_add]
      abel
    · simp only [accumulate, same, if_false, combine_cons, ih, add_assoc]

@[simp] theorem combination_addAt (A : Terms α) (blade : Nat) (c : α) :
    (A.addAt (· + ·) blade c).combination = A.combination + Finsupp.single blade c :=
  combine_accumulate blade c A.entries

@[simp] theorem combination_add (A B : Terms α) :
    (A.add B).combination = A.combination + B.combination := by
  have loop : ∀ (entries : List (Nat × α)) (acc : Terms α),
      (entries.foldl (fun acc e => acc.addAt (· + ·) e.1 e.2) acc).combination
        = acc.combination + combine entries := by
    intro entries
    induction entries with
    | nil => simp
    | cons e rest ih =>
      intro acc
      rw [foldl_cons, ih, combination_addAt, combine_cons, add_assoc]
  exact loop B.entries A

/-! ### The combination of a product -/

/-- The weight that a product of selected pairs gives to a pair of blades. -/
def weight (s : Signature) (select : Selection) (a b : Nat) : Int :=
  if select a b then productSign s a b else 0

private theorem signedMul_eq {sign : Int} (unit : sign = 1 ∨ sign = -1) (x y : α) :
    signedMul sign x y = sign • (x * y) := by
  rcases unit with rfl | rfl <;> simp [signedMul]

private theorem combination_multiplyTerm (s : Signature) (select : Selection) (a : Nat) (x : α)
    (entries : List (Nat × α)) (acc : Terms α) :
    (multiplyTerm s select a x entries acc).combination
      = acc.combination + convolve (weight s select) (Finsupp.single a x) (combine entries) := by
  unfold multiplyTerm
  induction entries generalizing acc with
  | nil => simp
  | cons e rest ih =>
    obtain ⟨b, y⟩ := e
    rw [foldl_cons, ih, combine_cons, convolve_add_right, convolve_single, ← add_assoc]
    congr 1
    simp only [weight]
    split
    · rcases productSign_cases s a b with sign | sign | sign
      · simp [sign, signedMul_eq]
      · simp [sign, signedMul_eq]
      · simp [sign]
    · simp

theorem combination_multiply (s : Signature) (select : Selection) (A B : Terms α) :
    (multiply s select A B).combination
      = convolve (weight s select) A.combination B.combination := by
  have loop : ∀ (entries : List (Nat × α)) (acc : Terms α),
      (entries.foldl (fun acc (e : Nat × α) => multiplyTerm s select e.1 e.2 B.entries acc) acc).combination
        = acc.combination + convolve (weight s select) (combine entries) B.combination := by
    intro entries
    induction entries with
    | nil => simp
    | cons e rest ih =>
      intro acc
      rw [foldl_cons, ih, combination_multiplyTerm, combine_cons, convolve_add_left, add_assoc]
      rfl
  have all := loop A.entries empty
  rw [combination_empty, zero_add] at all
  exact all

end Terms

end Bladewright
