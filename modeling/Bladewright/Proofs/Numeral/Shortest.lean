import Bladewright.Numeral.Decimal
import Bladewright.Proofs.Numeral.Rounding
import Mathlib.Tactic.NormNum

/-!
The shortest decimal of a double reads back as that double: every value of the format is a decimal, and the search ends
with one that rounds to the value.
-/
namespace Bladewright.Numeral.Decimal

open List

variable {f : Format} {q : ℚ}

theorem digitCount_mul_pow {n : Nat} (positive : 0 < n) (k : Nat) : digitCount (n * 10 ^ k) = digitCount n + k := by
  induction k with
  | zero => simp
  | succ k ih =>
    have shifted := Nat.toDigits_append_toDigits (b := 10) (n := n * 10 ^ k) (d := 0) (by decide) (by positivity)
      (by decide)
    rw [digitCount, show n * 10 ^ (k + 1) = 10 * (n * 10 ^ k) + 0 by ring, ← shifted, length_append, ← digitCount,
      ih]
    rfl

theorem round_scale (f : Format) (n k : Nat) (x : Int) : round f ⟨n * 10 ^ k, x⟩ = round f ⟨n, x + k⟩ := by
  rcases Nat.eq_zero_or_pos n with rfl | positive
  · simp [round]
  · have value : toRat ⟨n * 10 ^ k, x⟩ = toRat ⟨n, x + k⟩ := by
      simp only [toRat, powInt_eq_zpow, Nat.cast_mul, Nat.cast_pow, Nat.cast_ofNat,
        zpow_add₀ (show (10 : ℚ) ≠ 0 by norm_num), zpow_natCast]
      ring
    have nonzero : n * 10 ^ k ≠ 0 := by positivity
    simp only [round, digitCount_mul_pow positive, value, nonzero, positive.ne', if_false, Nat.cast_add, add_assoc,
      add_comm (k : Int)]

/-- Every value of the format is a whole number of the last decimal places. -/
theorem digits_exact (positive : 0 < q) (holds : f.Holds (.finite q)) :
    ((exact f q).digits : ℚ) = q * 10 ^ (f.precision - 1 - f.minExponent).toNat := by
  obtain ⟨m, k, -, least, value, -⟩ := holds
  let places := (f.precision - 1 - f.minExponent).toNat
  have whole : q * 10 ^ places = (m * 2 ^ (k + places).toNat * 5 ^ places : ℤ) := by
    have order : 0 ≤ k + places := by omega
    rw [value, show (10 : ℚ) = 2 * 5 by norm_num, mul_pow]
    push_cast
    rw [← zpow_natCast 2 (k + places).toNat, Int.toNat_of_nonneg order, zpow_add₀ two_ne_zero, zpow_natCast]
    ring
  have above : (0 : ℤ) ≤ m * 2 ^ (k + places).toNat * 5 ^ places := by
    have : (0 : ℚ) ≤ (m * 2 ^ (k + places).toNat * 5 ^ places : ℤ) := whole ▸ by positivity
    exact_mod_cast this
  change (((q * powInt 10 places).floor.toNat : ℕ) : ℚ) = q * 10 ^ places
  rw [powInt_eq_zpow, zpow_natCast, whole, Rat.floor_intCast]
  exact_mod_cast Int.toNat_of_nonneg above

theorem toRat_exact (positive : 0 < q) (holds : f.Holds (.finite q)) : (exact f q).toRat = q := by
  rw [toRat, digits_exact positive holds, exact, powInt_eq_zpow, zpow_neg, zpow_natCast]
  exact mul_inv_cancel_right₀ (pow_ne_zero _ (by norm_num)) q

theorem range_of_holds (positive : 0 < q) (holds : binary64.Holds (.finite q)) :
    (10 ^ 400 : ℚ)⁻¹ ≤ q ∧ q < 10 ^ 400 := by
  have power : (2 : ℚ) ^ (3 * 400) ≤ 10 ^ 400 := by
    rw [pow_mul]
    exact pow_le_pow_left₀ (by norm_num) (by norm_num) 400
  obtain ⟨m, k, -, least, value, range⟩ := holds
  have first : 1 ≤ m := by
    by_contra none
    have : (m : ℚ) ≤ 0 := by exact_mod_cast (by omega : m ≤ 0)
    exact positive.not_ge (value ▸ mul_nonpos_of_nonpos_of_nonneg this (zpow_pos two_pos k).le)
  constructor
  · calc (10 ^ 400 : ℚ)⁻¹ ≤ (2 ^ (3 * 400))⁻¹ := inv_anti₀ (by positivity) power
      _ = 2 ^ (-(3 * 400 : ℕ) : ℤ) := by rw [zpow_neg, zpow_natCast]
      _ ≤ 2 ^ k := zpow_le_zpow_right₀ one_le_two (le_trans (by decide) least)
      _ ≤ m * 2 ^ k := le_mul_of_one_le_left (zpow_pos two_pos k).le (by exact_mod_cast first)
      _ = q := value.symm
  · calc q ≤ |q| := le_abs_self q
      _ < 2 ^ (binary64.maxExponent + 1) := range
      _ ≤ 2 ^ ((3 * 400 : ℕ) : ℤ) := zpow_le_zpow_right₀ one_le_two (by decide)
      _ ≤ 10 ^ 400 := by rw [zpow_natCast]; exact power

theorem round_exact (positive : 0 < q) (holds : binary64.Holds (.finite q)) :
    (exact binary64 q).round binary64 = .finite q := by
  have digits := digits_exact positive holds
  obtain ⟨tiny, huge⟩ := range_of_holds positive holds
  obtain ⟨n, whole⟩ : ∃ n, (exact binary64 q).digits = n := ⟨_, rfl⟩
  obtain ⟨places, shift⟩ : ∃ p, (binary64.precision - 1 - binary64.minExponent).toNat = p := ⟨_, rfl⟩
  have exponent : (exact binary64 q).exponent = -places := by rw [← shift]; rfl
  rw [whole, shift] at digits
  have scale : (0 : ℚ) < 10 ^ places := by positivity
  have nonzero : n ≠ 0 := by
    rintro rfl
    exact (mul_pos positive scale).ne (by simpa using digits)
  have long : digitCount n ≤ 400 + places := by
    refine (Nat.length_toDigits_le_iff (by decide) (by omega)).mpr ?_
    have : (n : ℚ) < 10 ^ (400 + places) := by
      rw [digits, pow_add]
      exact mul_lt_mul_of_pos_right huge scale
    exact_mod_cast this
  have short : places ≤ digitCount n + 400 := by
    by_contra less
    have small : n < 10 ^ digitCount n :=
      (Nat.length_toDigits_le_iff (by decide) Nat.length_toDigits_pos).mp le_rfl
    have large : (10 : ℚ) ^ places ≤ n * 10 ^ 400 := by
      rw [digits, mul_assoc, mul_comm (10 ^ places), ← mul_assoc]
      exact le_mul_of_one_le_left scale.le ((inv_le_iff_one_le_mul₀ (by positivity)).mp tiny)
    have : n * 10 ^ 400 < 10 ^ places :=
      calc n * 10 ^ 400 < 10 ^ digitCount n * 10 ^ 400 := Nat.mul_lt_mul_of_pos_right small (by positivity)
        _ = 10 ^ (digitCount n + 400) := (pow_add ..).symm
        _ ≤ 10 ^ places := Nat.pow_le_pow_right (by decide) (by omega)
    exact absurd (by exact_mod_cast large) this.not_ge
  rw [round, whole, exponent, if_neg nonzero, if_neg (by omega), if_neg (by omega), toRat_exact positive holds,
    Format.round_of_holds holds]

theorem round_of_readsBack? {count : Nat} {d : Decimal} (found : readsBack? f q count = some d) :
    d.round f = .finite q := by
  simp only [readsBack?] at found
  split_ifs at found with both nearer farther even below above
  all_goals cases found
  exacts [both.1, both.2, both.1, both.2, below, above]

theorem round_shortest (positive : 0 < q) (holds : binary64.Holds (.finite q)) :
    (shortest binary64 q).round binary64 = .finite q := by
  have search (steps count : Nat) : (shortest.search binary64 q steps count).round binary64 = .finite q := by
    induction steps generalizing count with
    | zero => exact round_exact positive holds
    | succ steps ih =>
      rw [shortest.search]
      cases found : readsBack? binary64 q count with
      | none => exact ih (count + 1)
      | some d => exact round_of_readsBack? found
  exact search 17 1

/-- The digits of a number without the zeros at its end are those of a number. -/
theorem kept_digits {n : Nat} (positive : 0 < n) : ∃ m k, 0 < m ∧ n = m * 10 ^ k ∧
    ((Nat.toDigits 10 n).reverse.dropWhile (· == '0')).reverse = Nat.toDigits 10 m := by
  induction n using Nat.strongRecOn with
  | ind n ih =>
    obtain ⟨init, last⟩ : ∃ init, Nat.toDigits 10 n = init ++ [Nat.digitChar (n % 10)] := by
      rcases Nat.lt_or_ge n 10 with small | large
      · exact ⟨[], by rw [Nat.toDigits_of_lt_base small, Nat.mod_eq_of_lt small]; rfl⟩
      · exact ⟨_, Nat.toDigits_of_base_le (by decide) large⟩
    by_cases zero : n % 10 = 0
    · obtain ⟨m, k, positive, value, digits⟩ := ih (n / 10) (by omega) (by omega)
      refine ⟨m, k + 1, positive, by rw [pow_succ, ← mul_assoc, ← value]; omega, ?_⟩
      have split := Nat.toDigits_of_base_le (b := 10) (by decide) (show 10 ≤ n by omega)
      rw [split, zero, reverse_append, reverse_singleton, singleton_append,
        dropWhile_cons_of_pos rfl, digits]
    · refine ⟨n, 0, positive, by simp, ?_⟩
      have other : ∀ b < 10, b ≠ 0 → ¬(Nat.digitChar b == '0') = true := by decide
      rw [last, reverse_append, reverse_singleton, singleton_append,
        dropWhile_cons_of_neg (by exact other _ (Nat.mod_lt n (by decide)) zero), reverse_cons,
        reverse_reverse]

/-- The shortest decimal of a double has the digits of a number and reads back as the double. -/
theorem shortest_normal (positive : 0 < q) (holds : binary64.Holds (.finite q)) : ∃ (m : Nat) (x : Int),
    (shortest binary64 q).normal = (Nat.toDigits 10 m, digitCount m + x) ∧ round binary64 ⟨m, x⟩ = .finite q := by
  have value := round_shortest positive holds
  obtain ⟨⟨n, x⟩, shortest⟩ : ∃ d, shortest binary64 q = d := ⟨_, rfl⟩
  rw [shortest] at value ⊢
  have nonzero : n ≠ 0 := by
    rintro rfl
    cases value
    exact lt_irrefl _ positive
  obtain ⟨m, k, positive, rfl, digits⟩ := kept_digits (Nat.pos_of_ne_zero nonzero)
  refine ⟨m, x + k, ?_, round_scale binary64 m k x ▸ value⟩
  rw [normal]
  simp only [digits, isEmpty_eq_false_iff.mpr Nat.toDigits_ne_nil, Bool.false_eq_true, if_false]
  rw [← digitCount, digitCount_mul_pow positive]
  push_cast
  ring_nf

end Bladewright.Numeral.Decimal
