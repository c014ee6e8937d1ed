import Bladewright.Proofs.Blade.Sign
import Mathlib.Data.Nat.Choose.Basic

/-!
The enumeration of the blades of a grade. A step of the enumeration that takes a basis vector adds it below all basis
vectors that are taken later, so it adds one to the grade.
-/
namespace Bladewright.Blade

open List

variable {first rest blade k width n : Nat}

theorem testBit_two_pow_add (above : 2 ^ (first + 1) ∣ rest) (i : Nat) :
    (2 ^ first + rest).testBit i = (rest.testBit i || decide (first = i)) := by
  obtain ⟨y, rfl⟩ := above
  rw [Nat.add_comm, Nat.two_pow_add_eq_or_of_lt (Nat.pow_lt_pow_right (by omega) (by omega)), Nat.testBit_or,
    Nat.testBit_two_pow]

theorem grade_two_pow_add (above : 2 ^ (first + 1) ∣ rest) : grade (2 ^ first + rest) = grade rest + 1 := by
  have bits := testBit_two_pow_add above
  obtain ⟨y, rfl⟩ := above
  have inserted : support (2 ^ first + 2 ^ (first + 1) * y) = insert first (support (2 ^ (first + 1) * y)) := by
    ext i
    simp only [mem_support, bits, Finset.mem_insert, Bool.or_eq_true, decide_eq_true_eq]
    exact ⟨fun set => set.symm.imp_left Eq.symm, fun set => set.symm.imp_right Eq.symm⟩
  have fresh : first ∉ support (2 ^ (first + 1) * y) := by
    rw [mem_support, Nat.testBit_two_pow_mul]
    simp
  rw [← card_support, inserted, Finset.card_insert_of_notMem fresh, card_support]

theorem mem_ofGradeFrom (mem : blade ∈ ofGradeFrom first width k) : 2 ^ first ∣ blade ∧ grade blade = k := by
  induction width generalizing first k blade with
  | zero =>
    cases k with
    | zero =>
      rw [mem_singleton.mp mem]
      exact ⟨Nat.dvd_zero _, rfl⟩
    | succ k => cases mem
  | succ width ih =>
    cases k with
    | zero =>
      rw [mem_singleton.mp mem]
      exact ⟨Nat.dvd_zero _, rfl⟩
    | succ k =>
      have steps : 2 ^ first ∣ 2 ^ (first + 1) := Nat.pow_dvd_pow 2 (by omega)
      rcases mem_append.mp mem with mem | mem
      · obtain ⟨rest, taken, rfl⟩ := mem_map.mp mem
        obtain ⟨above, grades⟩ := ih taken
        refine ⟨Nat.dvd_add (Nat.dvd_refl _) (steps.trans above), ?_⟩
        rw [← grades]
        exact grade_two_pow_add above
      · obtain ⟨above, grades⟩ := ih mem
        exact ⟨steps.trans above, grades⟩

theorem grade_of_mem_ofGrade (mem : blade ∈ ofGrade n k) : grade blade = k :=
  (mem_ofGradeFrom mem).2

theorem eq_zero_of_grade (zero : grade blade = 0) : blade = 0 := by
  rw [← card_support, Finset.card_eq_zero] at zero
  refine Nat.eq_of_testBit_eq fun i => ?_
  have absent : i ∉ support blade := by simp [zero]
  simpa using absent

theorem grade_le (small : blade < 2 ^ n) : grade blade ≤ n := by
  rw [← card_support, support_eq_filter small]
  exact (Finset.card_filter_le _ _).trans (Finset.card_range n).le

theorem lt_of_mem_ofGradeFrom (mem : blade ∈ ofGradeFrom first width k) : blade < 2 ^ (first + width) := by
  induction width generalizing first k blade with
  | zero =>
    cases k with
    | zero =>
      rw [mem_singleton.mp mem]
      exact Nat.two_pow_pos _
    | succ k => cases mem
  | succ width ih =>
    cases k with
    | zero =>
      rw [mem_singleton.mp mem]
      exact Nat.two_pow_pos _
    | succ k =>
      have shifted : first + (width + 1) = first + 1 + width := by omega
      rw [shifted]
      rcases mem_append.mp mem with mem | mem
      · obtain ⟨rest, taken, rfl⟩ := mem_map.mp mem
        obtain ⟨⟨y, rfl⟩, -⟩ := mem_ofGradeFrom taken
        -- below the bound there is room for one more basis vector than the multiple of `2 ^ (first + 1)` has
        have bound := ih taken
        rw [pow_add 2 (first + 1)] at bound ⊢
        have room : y + 1 ≤ 2 ^ width := Nat.lt_of_mul_lt_mul_left bound
        calc 2 ^ first + 2 ^ (first + 1) * y < 2 ^ (first + 1) * (y + 1) := by
              have lower : 2 ^ first < 2 ^ (first + 1) := Nat.pow_lt_pow_right (by omega) (by omega)
              rw [Nat.mul_succ]
              omega
          _ ≤ 2 ^ (first + 1) * 2 ^ width := Nat.mul_le_mul_left _ room
      · exact ih mem

theorem mem_ofGradeFrom_of (above : 2 ^ first ∣ blade)
    (small : blade < 2 ^ (first + width)) : blade ∈ ofGradeFrom first width (grade blade) := by
  induction width generalizing first blade with
  | zero =>
    have zero : blade = 0 := Nat.eq_zero_of_dvd_of_lt above small
    subst zero
    exact mem_singleton.mpr rfl
  | succ width ih =>
    have shifted : first + (width + 1) = first + 1 + width := by omega
    rw [shifted] at small
    obtain ⟨m, rfl⟩ := above
    rcases Nat.even_or_odd' m with ⟨y, rfl | rfl⟩
    · -- the basis vector is not taken
      have skipped : 2 ^ first * (2 * y) = 2 ^ (first + 1) * y := by ring
      rw [skipped] at small ⊢
      have mem := ih (Nat.dvd_mul_right _ _) small
      cases grades : grade (2 ^ (first + 1) * y) with
      | zero => rw [eq_zero_of_grade grades]; exact mem_singleton.mpr rfl
      | succ k =>
        rw [grades] at mem
        exact mem_append_right _ mem
    · have taken : 2 ^ first * (2 * y + 1) = 2 ^ first + 2 ^ (first + 1) * y := by ring
      rw [taken] at small ⊢
      rw [grade_two_pow_add (Nat.dvd_mul_right _ _)]
      have mem := ih (Nat.dvd_mul_right _ y) (Nat.lt_of_le_of_lt (Nat.le_add_left _ _) small)
      exact mem_append_left _ (mem_map_of_mem mem)

theorem mem_ofGrade : blade ∈ ofGrade n k ↔ blade < 2 ^ n ∧ grade blade = k := by
  constructor
  · intro mem
    have small := lt_of_mem_ofGradeFrom mem
    rw [Nat.zero_add] at small
    exact ⟨small, grade_of_mem_ofGrade mem⟩
  · rintro ⟨small, rfl⟩
    exact mem_ofGradeFrom_of (by simp) (by simpa using small)

theorem nodup_ofGradeFrom (first width k : Nat) : (ofGradeFrom first width k).Nodup := by
  induction width generalizing first k with
  | zero => cases k <;> simp [ofGradeFrom]
  | succ width ih =>
    cases k with
    | zero => simp [ofGradeFrom]
    | succ k =>
      rw [ofGradeFrom, nodup_append]
      refine ⟨(ih (first + 1) k).map fun _ _ => Nat.add_left_cancel, ih (first + 1) (k + 1), ?_⟩
      intro a taken b skipped same
      obtain ⟨rest, mem, rfl⟩ := mem_map.mp taken
      subst same
      -- the first basis vector is in one and not in the other
      have divides := (Nat.dvd_add_left (mem_ofGradeFrom mem).1).mp (mem_ofGradeFrom skipped).1
      exact absurd ((Nat.pow_dvd_pow_iff_le_right (by omega)).mp divides) (by omega)

theorem nodup_ofGrade (n k : Nat) : (ofGrade n k).Nodup := nodup_ofGradeFrom 0 n k

theorem nodup_flatMap_ofGrade (n : Nat) {grades : List Nat} (distinct : grades.Nodup) :
    (grades.flatMap (ofGrade n)).Nodup := by
  rw [nodup_flatMap]
  refine ⟨fun k _ => nodup_ofGrade n k, distinct.imp fun different blade first second => different ?_⟩
  rw [← grade_of_mem_ofGrade first, grade_of_mem_ofGrade second]

theorem ofGrade_zero (n : Nat) : ofGrade n 0 = [0] := by cases n <;> rfl

theorem length_ofGradeFrom (first width k : Nat) : (ofGradeFrom first width k).length = width.choose k := by
  induction width generalizing first k with
  | zero => cases k <;> simp [ofGradeFrom]
  | succ width ih =>
    cases k with
    | zero => simp [ofGradeFrom]
    | succ k => simp [ofGradeFrom, ih, Nat.choose_succ_succ]

theorem length_ofGrade (n k : Nat) : (ofGrade n k).length = n.choose k := length_ofGradeFrom 0 n k

end Bladewright.Blade
