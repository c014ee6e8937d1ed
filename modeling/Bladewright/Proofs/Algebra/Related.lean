import Bladewright.Algebra.Product
import Mathlib.Data.List.Forall2

/-!
Terms over two kinds of coefficients that correspond entry by entry: the same blades in the same order, with related
coefficients.
-/
namespace Bladewright.Terms

open List Terms

variable {α β : Type} {R : α → β → Prop}

/-- The same blade with related coefficients. -/
def RelatedEntry (R : α → β → Prop) (a : Nat × α) (b : Nat × β) : Prop := a.1 = b.1 ∧ R a.2 b.2

/-- The same blades in the same order, with related coefficients. -/
def Related (R : α → β → Prop) (A : Terms α) (B : Terms β) : Prop :=
  List.Forall₂ (RelatedEntry R) A.entries B.entries

/-- Arithmetic takes related coefficients to related ones. -/
structure Respects (R : α → β → Prop) [Add α] [Mul α] [Neg α] [Add β] [Mul β] [Neg β] : Prop where
  add {a a' : α} {b b' : β} : R a b → R a' b' → R (a + a') (b + b')
  mul {a a' : α} {b b' : β} : R a b → R a' b' → R (a * a') (b * b')
  neg {a : α} {b : β} : R a b → R (-a) (-b)

theorem foldl_related {γ δ σ τ : Type} {P : σ → τ → Prop} {Q : γ → δ → Prop} {f : σ → γ → σ}
    {g : τ → δ → τ} {xs : List γ} {ys : List δ} (pairs : List.Forall₂ Q xs ys)
    (step : ∀ s t x y, P s t → Q x y → P (f s x) (g t y)) {s : σ} {t : τ} (start : P s t) :
    P (xs.foldl f s) (ys.foldl g t) := by
  induction pairs generalizing s t with
  | nil => exact start
  | cons pair _ ih => exact ih (step _ _ _ _ start pair)

theorem related_empty : Related R (empty : Terms α) (empty : Terms β) := .nil

variable {a : α} {b : β}

theorem related_single (blade : Nat) (coefficients : R a b) : Related R (single blade a) (single blade b) :=
  .cons ⟨rfl, coefficients⟩ .nil

namespace Related

variable {A A' : Terms α} {B B' : Terms β}

theorem blades_eq (related : Related R A B) : A.blades = B.blades := by
  unfold Related at related
  unfold blades
  generalize A.entries = xs at related ⊢
  generalize B.entries = ys at related ⊢
  induction related with
  | nil => rfl
  | cons pair _ ih => rw [map_cons, map_cons, pair.1, ih]

theorem coeff [OfNat α 0] [OfNat β 0] (zero : R 0 0) (related : Related R A B) (blade : Nat) :
    R (A.coeff blade) (B.coeff blade) := by
  unfold Related at related
  unfold Terms.coeff get?
  generalize A.entries = xs at related ⊢
  generalize B.entries = ys at related ⊢
  induction related with
  | nil => exact zero
  | cons pair _ ih =>
    obtain ⟨same, coefficients⟩ := pair
    rw [lookup_cons, lookup_cons, same]
    split
    · exact coefficients
    · exact ih

theorem addAt {f : α → α → α} {g : β → β → β}
    (joins : ∀ a b a' b', R a b → R a' b' → R (f a a') (g b b')) (related : Related R A B)
    (blade : Nat) (coefficients : R a b) :
    Related R (A.addAt f blade a) (B.addAt g blade b) := by
  unfold Related at related
  change List.Forall₂ (RelatedEntry R) (accumulate f blade a A.entries) (accumulate g blade b B.entries)
  generalize A.entries = xs at related ⊢
  generalize B.entries = ys at related ⊢
  induction related with
  | nil => exact .cons ⟨rfl, coefficients⟩ .nil
  | @cons x y _ _ pair rest ih =>
    obtain ⟨same, coefficients'⟩ := pair
    unfold accumulate
    rw [same]
    split
    · exact .cons ⟨rfl, joins _ _ _ _ coefficients' coefficients⟩ rest
    · exact .cons ⟨rfl, coefficients'⟩ ih

theorem ofList {xs : List (Nat × α)} {ys : List (Nat × β)}
    (entries : List.Forall₂ (RelatedEntry R) xs ys) : Related R (ofList xs) (ofList ys) := by
  refine foldl_related entries (fun A B x y related pair => ?_) related_empty
  rw [pair.1]
  exact related.addAt (fun _ _ _ _ _ new => new) _ pair.2

variable {f : Nat → α → α} {g : Nat → β → β}

theorem entries_map (rename : Nat → Nat)
    (coefficients : ∀ blade a b, R a b → R (f blade a) (g blade b)) (related : Related R A B) :
    List.Forall₂ (RelatedEntry R) (A.entries.map fun e => (rename e.1, f e.1 e.2))
      (B.entries.map fun e => (rename e.1, g e.1 e.2)) := by
  refine rel_map (fun x y pair => ?_) related
  refine ⟨congrArg rename pair.1, ?_⟩
  rw [pair.1]
  exact coefficients _ _ _ pair.2

theorem map (coefficients : ∀ blade a b, R a b → R (f blade a) (g blade b)) (related : Related R A B) :
    Related R (A.map f) (B.map g) :=
  related.entries_map id coefficients

theorem complement (full : Nat)
    (coefficients : ∀ blade a b, R a b → R (f blade a) (g blade b)) (related : Related R A B) :
    Related R (A.complement full f) (B.complement full g) :=
  related.entries_map (full ^^^ ·) coefficients

theorem entries_filter (p : Nat → Bool) (related : Related R A B) :
    List.Forall₂ (RelatedEntry R) (A.entries.filter fun e => p e.1) (B.entries.filter fun e => p e.1) := by
  unfold Related at related
  generalize A.entries = xs at related ⊢
  generalize B.entries = ys at related ⊢
  induction related with
  | nil => exact .nil
  | cons pair _ ih =>
    rw [filter_cons, filter_cons, pair.1]
    split
    · exact .cons pair ih
    · exact ih

theorem filter (p : Nat → Bool) (related : Related R A B) : Related R (A.filter p) (B.filter p) :=
  related.entries_filter p

section Arithmetic

variable [Add α] [Mul α] [Neg α] [Add β] [Mul β] [Neg β] (laws : Respects R)
include laws

theorem add (left : Related R A B) (right : Related R A' B') : Related R (A.add A') (B.add B') := by
  refine foldl_related right (fun A B x y related pair => ?_) left
  rw [pair.1]
  exact related.addAt (fun _ _ _ _ h h' => laws.add h h') _ pair.2

theorem neg (related : Related R A B) : Related R A.neg B.neg :=
  related.map fun _ _ _ h => laws.neg h

theorem scale (factor : R a b) (related : Related R A B) : Related R (A.scale a) (B.scale b) :=
  related.map fun _ _ _ h => laws.mul h factor

theorem signedMul {a' : α} {b' : β} (sign : Int) (left : R a b) (right : R a' b') :
    R (signedMul sign a a') (signedMul sign b b') := by
  unfold Terms.signedMul
  split
  · exact laws.mul (laws.neg left) right
  · exact laws.mul left right

theorem multiplyTerm (s : Signature) (select : Selection) (blade : Nat)
    (coefficients : R a b) (right : Related R A' B') (related : Related R A B) :
    Related R (multiplyTerm s select blade a A'.entries A)
      (multiplyTerm s select blade b B'.entries B) := by
  refine foldl_related right (fun A B x y related pair => ?_) related
  obtain ⟨same, coefficients'⟩ := pair
  simp only [same]
  split
  · split
    · exact related
    · exact related.addAt (fun _ _ _ _ h h' => laws.add h h') _
        (signedMul laws _ coefficients coefficients')
  · exact related

theorem multiply (s : Signature) (select : Selection) (left : Related R A B)
    (right : Related R A' B') : Related R (multiply s select A A') (multiply s select B B') := by
  refine foldl_related left (fun A B x y related pair => ?_) related_empty
  simp only [pair.1]
  exact multiplyTerm laws s select _ pair.2 right related

theorem outerProduct (s : Signature) (left : Related R A B) (right : Related R A' B') :
    Related R (A.outerProduct s A') (B.outerProduct s B') := by
  rw [outerProduct_eq_multiply, outerProduct_eq_multiply]
  exact multiply laws s .disjoint left right

theorem signed (sign : Int) (coefficients : R a b) : R (signed sign a) (signed sign b) := by
  unfold Terms.signed
  split
  · exact coefficients
  · exact laws.neg coefficients

theorem reverse (related : Related R A B) : Related R A.reverse B.reverse :=
  related.map fun _ _ _ h => signed laws _ h

theorem involute (related : Related R A B) : Related R A.involute B.involute :=
  related.map fun _ _ _ h => signed laws _ h

theorem rightComplement (s : Signature) (related : Related R A B) :
    Related R (A.rightComplement s) (B.rightComplement s) :=
  related.complement _ fun _ _ _ h => signed laws _ h

theorem leftComplement (s : Signature) (related : Related R A B) :
    Related R (A.leftComplement s) (B.leftComplement s) :=
  related.complement _ fun _ _ _ h => signed laws _ h

end Arithmetic

end Related

end Bladewright.Terms
