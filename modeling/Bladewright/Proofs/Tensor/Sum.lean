import Bladewright.Tensor.Sum
import Mathlib.Algebra.BigOperators.Group.List.Basic
import Mathlib.Data.List.Forall2
import Mathlib.Tactic.Abel

/-!
The order of summation does not matter in exact arithmetic.
-/
namespace Bladewright.Tensor

open List Tensor

/-! ### Every fourth element -/

theorem everyFourth_cons {α : Type} (x : α) (xs : List α) : everyFourth (x :: xs) = x :: everyFourth (xs.drop 3) := by
  obtain _ | ⟨a, _ | ⟨b, _ | ⟨c, xs⟩⟩⟩ := xs <;> rfl

theorem forall₂_everyFourth {α β : Type} {R : α → β → Prop} {xs : List α} {ys : List β}
    (each : List.Forall₂ R xs ys) : List.Forall₂ R (everyFourth xs) (everyFourth ys) := by
  induction xs using everyFourth.induct generalizing ys with
  | case1 a b c d rest ih =>
    obtain _ | ⟨first, _ | ⟨-, _ | ⟨-, _ | ⟨-, others⟩⟩⟩⟩ := each
    exact .cons first (ih others)
  | case2 a tail short =>
    obtain _ | ⟨first, others⟩ := each
    have length := others.length_eq
    have few : tail.length < 3 := by
      obtain _ | ⟨b, _ | ⟨c, _ | ⟨d, rest⟩⟩⟩ := tail
      · simp
      · simp
      · simp
      · exact absurd rfl (short b c d rest)
    rw [everyFourth_cons, everyFourth_cons, drop_eq_nil_of_le (by omega), drop_eq_nil_of_le (by omega)]
    exact .cons first .nil
  | case3 =>
    obtain _ | _ := each
    exact .nil

theorem sum_everyFourth {M : Type} [AddCommMonoid M] (groups : Nat) (ms : List M) (length : ms.length = groups * 4) :
    (everyFourth ms).sum + (everyFourth (ms.drop 1)).sum + (everyFourth (ms.drop 2)).sum +
      (everyFourth (ms.drop 3)).sum = ms.sum := by
  induction groups generalizing ms with
  | zero =>
    obtain rfl : ms = [] := length_eq_zero_iff.mp (by omega)
    simp [everyFourth]
  | succ groups ih =>
    obtain _ | ⟨a, _ | ⟨b, _ | ⟨c, _ | ⟨d, ms⟩⟩⟩⟩ := ms
    · simp at length
    · simp at length; omega
    · simp at length; omega
    · simp at length; omega
    · have others := ih ms (by simpa [Nat.add_mul] using length)
      simp only [drop_succ_cons, drop_zero, everyFourth_cons, sum_cons, ← others]
      abel

/-! ### Sums -/

variable {α M : Type} [AddCommMonoid M] {R : α → M → Prop} {add : α → α → α} {zero : α}

structure Sums (R : α → M → Prop) (add : α → α → α) (zero : α) : Prop where
  zero : R zero 0
  add {x y : α} {m n : M} : R x m → R y n → R (add x y) (m + n)

namespace Sums

variable (sums : Sums R add zero)
include sums

variable {ms ns : List M} {xs levels : List α}

theorem foldl (each : List.Forall₂ R xs ms) {x : α} {m : M} (first : R x m) : R (xs.foldl add x) (m + ms.sum) := by
  induction each generalizing x m with
  | nil => simpa using first
  | cons head _ ih =>
    rw [foldl_cons, sum_cons, ← add_assoc]
    exact ih (sums.add first head)

theorem carry (blocks : Nat) (each : List.Forall₂ R levels ms) :
    ∃ ns, List.Forall₂ R (carry add zero blocks levels) ns ∧ ns.sum = ms.sum ∧ ns.length = ms.length := by
  induction blocks, levels using carry.induct add generalizing ms with
  | case1 blocks a b rest moved =>
    rename_i ih
    obtain _ | @⟨_, m, _, _, first, _ | @⟨_, n, _, ms, second, others⟩⟩ := each
    have raised : List.Forall₂ R (add b a :: rest) ((n + m) :: ms) := .cons (sums.add second first) others
    rw [carry]
    split
    · obtain ⟨ns, related, total, length⟩ := ih raised
      exact ⟨0 :: ns, .cons sums.zero related, by simp [total]; abel, by simp [length]⟩
    · exact ⟨0 :: (n + m) :: ms, .cons sums.zero raised, by simp; abel, by simp⟩
  | case2 blocks levels single =>
    refine ⟨ms, ?_, rfl, rfl⟩
    obtain _ | ⟨a, _ | ⟨b, rest⟩⟩ := levels
    · simpa [carry] using each
    · simpa [carry] using each
    · exact absurd rfl (single a b rest)

theorem cascadeFrom {fuel : Nat} (blocks : Nat) (enough : xs.length < fuel)
    (some : levels ≠ []) (stored : List.Forall₂ R levels ms) (each : List.Forall₂ R xs ns) :
    R (cascadeFrom add zero fuel blocks levels xs) (ms.sum + ns.sum) := by
  induction fuel generalizing blocks levels xs ms ns with
  | zero => omega
  | succ fuel ih =>
    -- sixteen numbers go onto the lowest level, which may then overflow into the next
    obtain _ | @⟨a, m, levels, ms, first, others⟩ := stored
    · exact absurd rfl some
    have added := sums.foldl (forall₂_take 16 each) first
    rw [cascadeFrom]
    split
    · rename_i full
      obtain ⟨ms', related, total, length⟩ := sums.carry (blocks + 1) (.cons added others)
      have parts : ns.sum = (ns.take 16).sum + (ns.drop 16).sum := (sum_take_add_sum_drop ns 16).symm
      have left : (xs.drop 16).length < fuel := by simp; omega
      have result := ih (blocks + 1) left ?_ related (forall₂_drop 16 each)
      · rw [total, sum_cons] at result
        rw [sum_cons, parts]
        convert result using 1
        abel
      · rintro none
        rw [none] at related
        cases related
        simp at length
    · rename_i few
      have all : ns.take 16 = ns := take_of_length_le (by rw [← each.length_eq]; omega)
      have result := sums.foldl others added
      rw [all] at result
      rw [sum_cons]
      convert result using 1
      abel

theorem cascade (each : List.Forall₂ R xs ns) : R (cascade add zero xs) ns.sum := by
  have levels : List.Forall₂ R (List.replicate 4 zero) [0, 0, 0, 0] :=
    .cons sums.zero (.cons sums.zero (.cons sums.zero (.cons sums.zero .nil)))
  have result := sums.cascadeFrom 0 (Nat.lt_succ_self _) (cons_ne_nil _ _) levels each
  simpa [Tensor.cascade] using result

theorem interleaved (each : List.Forall₂ R xs ns) : R (interleaved add zero xs) ns.sum := by
  have whole := forall₂_take (xs.length / 4 * 4) each
  have quarter (k : Nat) := sums.cascade (forall₂_everyFourth (forall₂_drop k whole))
  have size : (xs.take (xs.length / 4 * 4)).length = xs.length / 4 * 4 := by
    rw [length_take]
    omega
  have left := sums.foldl (forall₂_drop (xs.length / 4 * 4) each) (quarter 0)
  have result := sums.add (sums.add (sums.add left (quarter 1)) (quarter 2)) (quarter 3)
  have total := sum_take_add_sum_drop ns (xs.length / 4 * 4)
  rw [← sum_everyFourth _ _ (whole.length_eq ▸ size)] at total
  unfold Tensor.interleaved
  simp only [size]
  rw [← total]
  convert result using 1
  · rfl
  · rw [drop_zero]
    abel

theorem columnSum (lanes : Nat) (each : List.Forall₂ R xs ns) : R (columnSum add zero lanes xs) ns.sum := by
  unfold Tensor.columnSum
  split
  · exact sums.cascade each
  · exact sums.interleaved each

end Sums

end Bladewright.Tensor
