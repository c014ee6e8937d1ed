import Bladewright.Algebra.Product
import Mathlib.Algebra.Group.Nat.Defs

/-!
Terms over the basis vectors of an algebra: every blade of terms within `n` dimensions is a set of the first `n` basis
vectors, so it lies below `2 ^ n`.
-/
namespace Bladewright

open List

theorem Signature.fullBlade_lt (s : Signature) : Terms.fullBlade s < 2 ^ s.dimension :=
  Nat.sub_lt (Nat.two_pow_pos _) Nat.one_pos

namespace Terms

variable {α β : Type} {n : Nat}

def Within (n : Nat) (A : Terms α) : Prop := ∀ blade ∈ A.blades, blade < 2 ^ n

theorem within_empty : Within n (empty : Terms α) := fun _ mem => absurd mem not_mem_nil

theorem within_single {blade : Nat} (small : blade < 2 ^ n) (c : α) : Within n (single blade c) := by
  intro b mem
  rw [mem_singleton.mp mem]
  exact small

theorem within_pseudoscalar [OfNat α 1] (s : Signature) : Within s.dimension (pseudoscalar s : Terms α) :=
  within_single s.fullBlade_lt 1

theorem foldl_within {P : Terms β → Prop} {f : Terms β → Nat × α → Terms β} {entries : List (Nat × α)}
    (small : ∀ entry ∈ entries, entry.1 < 2 ^ n) (step : ∀ B entry, P B → entry.1 < 2 ^ n → P (f B entry))
    {B : Terms β} (start : P B) : P (entries.foldl f B) := by
  induction entries generalizing B with
  | nil => exact start
  | cons entry entries ih =>
    rw [forall_mem_cons] at small
    exact ih small.2 (step B entry start small.1)

namespace Within

variable {A B : Terms α}

theorem entries (within : Within n A) : ∀ entry ∈ A.entries, entry.1 < 2 ^ n :=
  fun _ mem => within _ (mem_map_of_mem mem)

theorem addAt (within : Within n A) (f : α → α → α) {blade : Nat} (small : blade < 2 ^ n) (c : α) :
    Within n (A.addAt f blade c) := by
  intro b mem
  change b ∈ (accumulate f blade c A.entries).map (·.1) at mem
  rw [map_fst_accumulate] at mem
  split at mem
  · exact within b mem
  · rcases mem_append.mp mem with mem | mem
    · exact within b mem
    · rw [mem_singleton.mp mem]
      exact small

theorem ofList {entries : List (Nat × α)} (small : ∀ entry ∈ entries, entry.1 < 2 ^ n) : Within n (ofList entries) :=
  foldl_within small (fun _ _ within small => within.addAt _ small _) within_empty

theorem map {f : Nat → α → β} (within : Within n A) : Within n (A.map f) := by
  intro blade mem
  obtain ⟨entry, stored, rfl⟩ := mem_map.mp mem
  obtain ⟨original, taken, rfl⟩ := mem_map.mp stored
  exact within.entries original taken

theorem filter (within : Within n A) (p : Nat → Bool) : Within n (A.filter p) := by
  intro blade mem
  obtain ⟨entry, stored, rfl⟩ := mem_map.mp mem
  exact within.entries entry (mem_filter.mp stored).1

theorem complement {f : Nat → α → β} {full : Nat} (bounded : full < 2 ^ n) (within : Within n A) :
    Within n (A.complement full f) := by
  intro blade mem
  obtain ⟨entry, stored, rfl⟩ := mem_map.mp mem
  obtain ⟨original, taken, rfl⟩ := mem_map.mp stored
  exact Nat.xor_lt_two_pow bounded (within.entries original taken)

theorem add [Add α] (left : Within n A) (right : Within n B) : Within n (A.add B) :=
  foldl_within right.entries (fun _ _ within small => within.addAt _ small _) left

theorem multiplyTerm [Add α] [Mul α] [Neg α] (s : Signature) (select : Selection) {a : Nat} (small : a < 2 ^ n)
    (c : α) (right : Within n B) {acc : Terms α} (within : Within n acc) :
    Within n (multiplyTerm s select a c B.entries acc) := by
  refine foldl_within right.entries (fun acc entry within below => ?_) within
  simp only
  split
  · split
    · exact within
    · exact within.addAt _ (Nat.xor_lt_two_pow small below) _
  · exact within

theorem multiply [Add α] [Mul α] [Neg α] (s : Signature) (select : Selection) (left : Within n A)
    (right : Within n B) : Within n (multiply s select A B) :=
  foldl_within left.entries (fun _ _ within small => multiplyTerm s select small _ right within) within_empty

theorem outerProduct [Add α] [Mul α] [Neg α] (s : Signature) (left : Within n A) (right : Within n B) :
    Within n (A.outerProduct s B) := by
  rw [outerProduct_eq_multiply]
  exact multiply s .disjoint left right

end Within

end Terms

end Bladewright
