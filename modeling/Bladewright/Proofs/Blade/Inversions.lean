import Bladewright.Proofs.Blade.Sign

/-!
Signs count inversions. The shifts of one blade over another count the pairs of a basis vector on the left and a lower
one on the right, and the sign that sorts distinct basis vectors counts the pairs that stand in the wrong order.
-/
namespace Bladewright.Blade

open List

/-- The number of pairs of places in a list of which the earlier one holds the higher index. -/
def inversions : List Nat → Nat
  | [] => 0
  | i :: rest => rest.countP (· < i) + inversions rest

theorem inversions_append_singleton (factors : List Nat) (i : Nat) :
    inversions (factors ++ [i]) = inversions factors + factors.countP (i < ·) := by
  induction factors with
  | nil => rfl
  | cons j rest ih =>
    simp only [cons_append, inversions, ih, countP_append, countP_cons, countP_nil]
    omega

/-- A blade that has taken up the factors of a list, which are distinct. -/
structure Collected (blade : Nat) (factors : List Nat) : Prop where
  distinct : factors.Nodup
  bits : ∀ j, blade.testBit j = decide (j ∈ factors)

namespace Collected

variable {blade : Nat} {done : List Nat} (kept : Collected blade done) {i : Nat}
include kept

theorem support_eq : support blade = done.toFinset := by
  ext j
  simp [kept.bits]

theorem push (fresh : i ∉ done) : Collected (blade ||| Nat.pow 2 i) (done ++ [i]) where
  distinct := nodup_append.mpr ⟨kept.distinct, nodup_singleton i, by
    rintro j own _ (_ | ⟨_, ⟨⟩⟩) rfl
    exact fresh own⟩
  bits j := by
    simp [Nat.testBit_or, Nat.testBit_two_pow, kept.bits, eq_comm]

theorem sign_of_next : reorderingSign blade (Nat.pow 2 i) = (-1) ^ done.countP (i < ·) := by
  rw [Nat.pow_eq, reorderingSign_eq_prod, support_two_pow, kept.support_eq]
  simp only [Finset.prod_singleton, pairSign]
  rw [Finset.prod_ite, Finset.prod_const, Finset.prod_const_one, mul_one]
  rw [countP_eq_length_filter, ← toFinset_card_of_nodup (kept.distinct.filter _), toFinset_filter]
  simp only [decide_eq_true_eq]

/-- Sorting from a blade that has taken up some factors, with the sign of their inversions: the rest is taken up too,
unless a factor has come before. -/
theorem sortIndices_of_collected (rest : List Nat) :
    ((done ++ rest).Nodup → ∃ whole, Collected whole (done ++ rest) ∧
      sortIndices blade ((-1) ^ inversions done) (rest.map Int.ofNat) = .ok (whole, (-1) ^ inversions (done ++ rest))) ∧
    (¬ (done ++ rest).Nodup → ∃ i ∈ rest, 1 < (done ++ rest).count i ∧
      sortIndices blade ((-1) ^ inversions done) (rest.map Int.ofNat) = .error (.uncontracted i)) := by
  induction rest generalizing blade done with
  | nil => simpa [kept.distinct] using ⟨blade, kept, rfl⟩
  | cons i rest ih =>
    simp only [map_cons, sortIndices, kept.bits, decide_eq_true_eq]
    by_cases seen : i ∈ done
    · have before : 0 < done.count i := count_pos_iff.mpr seen
      rw [if_pos seen]
      refine ⟨fun distinct => ?_, fun _ => ⟨i, mem_cons_self, ?_, rfl⟩⟩
      · exact absurd rfl ((nodup_append.mp distinct).2.2 i seen i mem_cons_self)
      · rw [count_append, count_cons_self]
        omega
    · rw [if_neg seen, kept.sign_of_next, ← pow_add, ← inversions_append_singleton]
      have next := ih (kept.push seen)
      rw [append_assoc, singleton_append] at next
      exact ⟨next.1, fun repeated => (next.2 repeated).imp fun j found => ⟨mem_cons_of_mem _ found.1, found.2⟩⟩

theorem addIndices_of_collected (rest : List Nat) (distinct : (done ++ rest).Nodup) (all : List Int) :
    ∃ whole, Collected whole (done ++ rest) ∧ addIndices all blade (rest.map Int.ofNat) = .ok whole := by
  induction rest generalizing blade done with
  | nil => simpa using ⟨blade, kept, rfl⟩
  | cons i rest ih =>
    have fresh : i ∉ done := fun seen => (nodup_append.mp distinct).2.2 i seen i mem_cons_self rfl
    simp only [map_cons, addIndices, kept.bits, decide_eq_true_eq, if_neg fresh]
    rw [← singleton_append, ← append_assoc] at distinct ⊢
    exact ih (kept.push fresh) distinct

theorem unique {other : Nat} (same : Collected other done) : blade = other :=
  Nat.eq_of_testBit_eq fun j => by rw [kept.bits, same.bits]

end Collected

theorem Collected.start : Collected 0 [] where
  distinct := nodup_nil
  bits j := by simp

/-- The signs of reordering. For two blades the loop over the shifts of the first counts the pairs of a basis vector of
the first and a lower one of the second, and the sign is its parity. Distinct basis vectors multiply to the blade of their indices with the sign of their inversions. Without a
signature a product of basis vectors is refused exactly if one of them is repeated, and such a one is named. -/
theorem signs_count_inversions :
    (∀ a b : Nat, countShared b (a >>> 1) 0 = ((support a ×ˢ support b).filter fun pair => pair.2 < pair.1).card ∧
      reorderingSign a b = (-1) ^ ((support a ×ˢ support b).filter fun pair => pair.2 < pair.1).card) ∧
    (∀ factors : List Nat, factors.Nodup → ∃ blade, ofIndices (factors.map Int.ofNat) = .ok blade ∧
      canonicalize none (factors.map Int.ofNat) = .ok (blade, (-1) ^ inversions factors)) ∧
    ∀ factors : List Nat, ((∃ e, canonicalize none (factors.map Int.ofNat) = .error e) ↔ ¬ factors.Nodup) ∧
      ∀ e, canonicalize none (factors.map Int.ofNat) = .error e → ∃ i, 1 < factors.count i ∧ e = .uncontracted i := by
  have distinct (factors : List Nat) (nodup : factors.Nodup) : ∃ blade, ofIndices (factors.map Int.ofNat) = .ok blade ∧
      canonicalize none (factors.map Int.ofNat) = .ok (blade, (-1) ^ inversions factors) := by
    obtain ⟨blade, kept, sorted⟩ := (Collected.start.sortIndices_of_collected factors).1 nodup
    obtain ⟨other, same, added⟩ := Collected.start.addIndices_of_collected factors nodup (factors.map Int.ofNat)
    exact ⟨blade, kept.unique same ▸ added, sorted⟩
  have repeated (factors : List Nat) (twice : ¬ factors.Nodup) : ∃ i, 1 < factors.count i ∧
      canonicalize none (factors.map Int.ofNat) = .error (.uncontracted i) := by
    obtain ⟨i, -, often, stopped⟩ := (Collected.start.sortIndices_of_collected factors).2 twice
    exact ⟨i, often, stopped⟩
  have refused (factors : List Nat) (e : IndexError) (failed : canonicalize none (factors.map Int.ofNat) = .error e) :
      ¬ factors.Nodup := by
    intro nodup
    obtain ⟨blade, -, sorted⟩ := distinct factors nodup
    exact nomatch failed.symm.trans sorted
  refine ⟨fun a b => ⟨swaps_eq_card a b, swaps_eq_card a b ▸ reorderingSign_eq_pow a b⟩, distinct,
    fun factors => ⟨⟨?_, fun twice => ?_⟩, fun e failed => ?_⟩⟩
  · rintro ⟨e, failed⟩
    exact refused factors e failed
  · obtain ⟨i, -, stopped⟩ := repeated factors twice
    exact ⟨_, stopped⟩
  · obtain ⟨i, often, stopped⟩ := repeated factors (refused factors e failed)
    exact ⟨i, often, Except.error.inj (failed.symm.trans stopped)⟩

theorem signs_count_inversions_cycle :
    [2, 0, 1].Nodup ∧ inversions [2, 0, 1] = 2 ∧
      ∃ blade, ofIndices [2, 0, 1] = .ok blade ∧ canonicalize none [2, 0, 1] = .ok (blade, (-1) ^ 2) :=
  ⟨by decide, rfl, signs_count_inversions.2.1 [2, 0, 1] (by decide)⟩

end Bladewright.Blade
