import Bladewright.Proofs.Blade.Enumeration

/-!
The canonical order of blades.
-/
namespace Bladewright.Blade

open List

theorem ascending_indices (blade : Nat) : (indices blade).Pairwise (· < ·) := pairwise_lt_range.filter _

theorem le_of_testBit {first blade i : Nat} (above : 2 ^ first ∣ blade) (present : blade.testBit i = true) :
    first ≤ i := by
  obtain ⟨y, rfl⟩ := above
  rw [Nat.testBit_two_pow_mul] at present
  simp at present
  omega

theorem indices_two_pow_add {first rest : Nat} (above : 2 ^ (first + 1) ∣ rest) :
    indices (2 ^ first + rest) = first :: indices rest := by
  have higher (i : Nat) (mem : i ∈ indices rest) : first < i := le_of_testBit above (mem_indices.mp mem)
  have fresh : first ∉ indices rest := fun mem => Nat.lt_irrefl _ (higher first mem)
  have same : (indices (2 ^ first + rest)).Perm (first :: indices rest) := by
    rw [perm_ext_iff_of_nodup (nodup_indices _) (nodup_cons.mpr ⟨fresh, nodup_indices rest⟩)]
    intro i
    rw [mem_indices, testBit_two_pow_add above, mem_cons, mem_indices, Bool.or_eq_true, decide_eq_true_eq,
      or_comm, eq_comm]
  refine same.eq_of_pairwise ?_ (ascending_indices _) (pairwise_cons.mpr ⟨higher, ascending_indices rest⟩)
  intro a b _ _ less more
  omega

theorem ascending_ofGradeFrom (first width k : Nat) :
    (ofGradeFrom first width k).Pairwise fun a b => indices a < indices b := by
  induction width generalizing first k with
  | zero => cases k <;> simp [ofGradeFrom]
  | succ width ih =>
    cases k with
    | zero => simp [ofGradeFrom]
    | succ k =>
      have taken {rest : Nat} (mem : rest ∈ ofGradeFrom (first + 1) width k) :
          indices (Nat.pow 2 first + rest) = first :: indices rest :=
        indices_two_pow_add (mem_ofGradeFrom mem).1
      rw [ofGradeFrom, pairwise_append, pairwise_map]
      refine ⟨(ih (first + 1) k).imp_of_mem ?_, ih (first + 1) (k + 1), ?_⟩
      · intro a b left right less
        rw [taken left, taken right, cons_lt_cons_iff]
        exact .inr ⟨rfl, less⟩
      · intro a mem b skipped
        obtain ⟨rest, own, rfl⟩ := mem_map.mp mem
        obtain ⟨above, grades⟩ := mem_ofGradeFrom skipped
        -- the blade that leaves the lowest basis vector out starts with a higher one
        cases listed : indices b with
        | nil =>
          rw [← card_support, support, listed] at grades
          cases grades
        | cons i is =>
          have present : i ∈ indices b := by simp [listed]
          have higher := le_of_testBit above (mem_indices.mp present)
          rw [taken own, cons_lt_cons_iff]
          exact .inl higher

theorem countP_lt_of_pairwise {xs : List Nat} {x i : Nat} (sorted : xs.Pairwise fun a b => indices a < indices b)
    (found : xs[i]? = some x) : xs.countP (fun a => indices a < indices x) = i := by
  obtain ⟨inside, value⟩ := List.getElem?_eq_some_iff.mp found
  have parts : xs = xs.take i ++ x :: xs.drop (i + 1) := by
    rw [← value, getElem_cons_drop, take_append_drop]
  rw [parts, pairwise_append, pairwise_cons] at sorted
  obtain ⟨-, ⟨later, -⟩, earlier⟩ := sorted
  have below : (xs.take i).countP (fun a => indices a < indices x) = i := by
    rw [countP_eq_length.mpr fun a mem => by simpa using earlier a mem x mem_cons_self]
    exact length_take_of_le (by omega)
  have above : (xs.drop (i + 1)).countP (fun a => indices a < indices x) = 0 := by
    rw [countP_eq_zero]
    intro b mem
    simpa using lt_asymm (later b mem)
  calc xs.countP (fun a => indices a < indices x)
      = (xs.take i ++ x :: xs.drop (i + 1)).countP (fun a => indices a < indices x) := congrArg _ parts
    _ = i := by rw [countP_append, below, countP_cons_of_neg (by simp), above, Nat.add_zero]

theorem position?_eq {n blade : Nat} (small : blade < 2 ^ n) :
    ∃ i, position? n blade = some i ∧ (ofGrade n (grade blade))[i]? = some blade := by
  have mem : blade ∈ ofGrade n (grade blade) := mem_ofGrade.mpr ⟨small, rfl⟩
  unfold position?
  cases found : (ofGrade n (grade blade)).idxOf? blade with
  | none => exact absurd mem (List.idxOf?_eq_none_iff.mp found)
  | some i =>
    obtain ⟨inside, same, -⟩ := List.idxOf?_eq_some_iff.mp found
    exact ⟨i, rfl, List.getElem?_eq_some_iff.mpr ⟨inside, same⟩⟩

theorem perm_flatMap_ofGrade (n : Nat) : ((List.range (n + 1)).flatMap (ofGrade n)).Perm (List.range (2 ^ n)) := by
  rw [perm_ext_iff_of_nodup (nodup_flatMap_ofGrade n nodup_range) nodup_range]
  intro blade
  rw [mem_flatMap, mem_range]
  constructor
  · rintro ⟨k, -, mem⟩
    exact (mem_ofGrade.mp mem).1
  · intro small
    exact ⟨grade blade, mem_range.mpr (Nat.lt_succ_of_le (grade_le small)), mem_ofGrade.mpr ⟨small, rfl⟩⟩

/-- The blades of a grade are those over the basis vectors with so many of them, each listed once, in the lexicographic
order of their indices, and there are as many as there are choices. A blade stands at the place of the number of
blades with lower indices, and all grades together list all blades. -/
theorem ofGrade_canonical (n k : Nat) :
    (∀ blade, (indices blade).Pairwise (· < ·) ∧ ∀ i, i ∈ indices blade ↔ blade.testBit i = true) ∧
    (∀ blade, blade ∈ ofGrade n k ↔ blade < 2 ^ n ∧ (indices blade).length = k) ∧
    (ofGrade n k).Nodup ∧
    (ofGrade n k).Pairwise (fun a b => indices a < indices b) ∧
    (ofGrade n k).length = n.choose k ∧
    (∀ blade < 2 ^ n, ∃ i, position? n blade = some i ∧ (ofGrade n (grade blade))[i]? = some blade ∧
      (ofGrade n (grade blade)).countP (fun other => indices other < indices blade) = i) ∧
    ((List.range (n + 1)).flatMap (ofGrade n)).Perm (List.range (2 ^ n)) := by
  refine ⟨fun blade => ⟨ascending_indices blade, fun i => mem_indices⟩, fun blade => ?_, nodup_ofGrade n k,
    ascending_ofGradeFrom 0 n k, length_ofGrade n k, fun blade small => ?_, perm_flatMap_ofGrade n⟩
  · rw [mem_ofGrade, ← card_support, support, toFinset_card_of_nodup (nodup_indices blade)]
  · obtain ⟨i, place, found⟩ := position?_eq small
    exact ⟨i, place, found, countP_lt_of_pairwise (ascending_ofGradeFrom 0 n _) found⟩

/-- Of the planes in four dimensions, two come before that of the first and the last basis vector. -/
theorem position?_outer_plane :
    9 < 2 ^ 4 ∧ position? 4 9 = some 2 ∧
      (ofGrade 4 2).countP (fun other => indices other < indices 9) = 2 := by
  have small : 9 < 2 ^ 4 := by decide
  obtain ⟨-, -, -, -, -, places, -⟩ := ofGrade_canonical 4 2
  obtain ⟨i, place, -, count⟩ := places 9 small
  have two : position? 4 9 = some 2 := by decide
  rw [two, Option.some_inj] at place
  exact ⟨small, two, count.trans place.symm⟩

end Bladewright.Blade
