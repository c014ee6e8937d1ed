import Bladewright.Numeral.Floating
import Mathlib.Algebra.Order.Field.Rat
import Mathlib.Algebra.Order.Ring.Cast
import Mathlib.Tactic.Ring
import Mathlib.Tactic.Positivity

/-!
Rounding to binary formats. A number other than zero stays so when it is rounded to significant bits.
-/
namespace Bladewright.Numeral

theorem powInt_eq_zpow (q : ℚ) (n : ℤ) : powInt q n = q ^ n := by
  unfold powInt
  split
  · rename_i nonneg
    conv_rhs => rw [← Int.toNat_of_nonneg nonneg, zpow_natCast]
  · rename_i negative
    have opposite : n = -((-n).toNat : ℤ) := by omega
    conv_rhs => rw [opposite, zpow_neg, zpow_natCast]

theorem magnitude_eq_abs (q : ℚ) : magnitude q = |q| := by
  unfold magnitude
  split
  · rename_i negative
    rw [abs_of_neg negative]
  · rename_i nonneg
    rw [abs_of_nonneg (not_lt.mp nonneg)]

/-- A rational other than zero is at least the power of two that its logarithm gives. -/
theorem powInt_log2_le {q : ℚ} (nonzero : q ≠ 0) : powInt 2 (log2 q) ≤ |q| := by
  have above : (2 : ℚ) ^ q.num.natAbs.log2 ≤ q.num.natAbs := by
    exact_mod_cast Nat.log2_self_le (Int.natAbs_ne_zero.mpr (Rat.num_ne_zero.mpr nonzero))
  have below : (q.den : ℚ) ≤ 2 ^ (q.den.log2 + 1) := by exact_mod_cast Nat.lt_log2_self.le
  have fraction : |q| = q.num.natAbs / q.den := by
    rw [Nat.cast_natAbs, Int.cast_abs, ← Nat.abs_cast q.den, ← abs_div, Rat.num_div_den]
  unfold log2
  simp only [magnitude_eq_abs]
  split
  · assumption
  · rw [powInt_eq_zpow, fraction]
    have exponent : ((q.num.natAbs.log2 : ℤ) - q.den.log2 - 1) = q.num.natAbs.log2 - (q.den.log2 + 1 : ℕ) := by
      push_cast
      ring
    rw [exponent, zpow_sub₀ two_ne_zero, zpow_natCast, zpow_natCast]
    exact div_le_div₀ (by positivity) above (by exact_mod_cast q.den_pos) below

theorem nearest_ne_zero {q : ℚ} (large : 1 ≤ |q|) : nearest q ≠ 0 := by
  have den : (0 : ℤ) < q.den := by exact_mod_cast q.den_pos
  have size : (q.den : ℤ) ≤ |q.num| := by
    rw [← Rat.num_div_den q, abs_div, Nat.abs_cast, le_div_iff₀ (by exact_mod_cast q.den_pos), one_mul] at large
    exact_mod_cast large
  have parts := Int.mul_fdiv_add_fmod q.num q.den
  have lower := Int.fmod_nonneg_of_pos q.num den
  have upper := Int.fmod_lt_of_pos q.num den
  unfold nearest roundDiv
  generalize q.num.fdiv q.den = low at parts ⊢
  generalize q.num.fmod q.den = rest at parts lower upper ⊢
  -- the floor is not zero, and it is minus one only if nothing is left over
  have low_ne : low ≠ 0 := by
    rintro rfl
    rw [abs_of_nonneg (by omega)] at size
    omega
  have exact_of : low = -1 → rest = 0 := by
    rintro rfl
    rw [abs_of_neg (by omega)] at size
    omega
  simp only
  split
  · exact low_ne
  · rename_i order
    rw [compare_gt_iff_gt] at order
    omega
  · rename_i order
    rw [compare_eq_iff_eq] at order
    split <;> omega

theorem roundBits_ne_zero {bits : Nat} (positive : 0 < bits) {q : ℚ} (nonzero : q ≠ 0) : roundBits bits q ≠ 0 := by
  have unit : (0 : ℚ) < powInt 2 (log2 q + 1 - bits) := by
    rw [powInt_eq_zpow]
    exact zpow_pos two_pos _
  rw [roundBits, if_neg nonzero, roundTo]
  refine mul_ne_zero (Int.cast_ne_zero.mpr (nearest_ne_zero ?_)) unit.ne'
  rw [abs_div, abs_of_pos unit, one_le_div unit]
  refine le_trans ?_ (powInt_log2_le nonzero)
  rw [powInt_eq_zpow, powInt_eq_zpow]
  exact zpow_le_zpow_right₀ (by norm_num) (by omega)

theorem nearest_intCast (n : ℤ) : nearest n = n := by
  have less : compare (0 : ℤ) 1 = .lt := by decide
  simp [nearest, roundDiv, less]

namespace Format

/-- The values of a format: a whole number of so many bits times a power of two, within the range, or a special value. -/
def Holds (f : Format) : Floating → Prop
  | .finite q => ∃ m k : ℤ, |m| < 2 ^ f.precision ∧ f.minExponent + 1 - f.precision ≤ k ∧ q = m * 2 ^ k ∧
      |q| < 2 ^ (f.maxExponent + 1)
  | _ => True

theorem round_of_holds {f : Format} {q : ℚ} (holds : f.Holds (.finite q)) : f.round q = .finite q := by
  obtain ⟨m, k, bits, least, value, range⟩ := holds
  by_cases zero : q = 0
  · rw [round, if_pos zero, zero]
  -- the highest bit of the number is at most that of its last place and of as many bits as there are
  have highest : log2 q < f.precision + k := by
    have size : |q| < 2 ^ (f.precision + k) := by
      have place : (0 : ℚ) < 2 ^ k := zpow_pos two_pos k
      rw [value, abs_mul, abs_of_pos place, zpow_add₀ two_ne_zero, zpow_natCast, ← Int.cast_abs]
      exact mul_lt_mul_of_pos_right (by exact_mod_cast bits) place
    have below := (powInt_log2_le zero).trans_lt size
    rwa [powInt_eq_zpow, zpow_lt_zpow_iff_right₀ one_lt_two] at below
  obtain ⟨e, exponent⟩ : ∃ e, max (log2 q) f.minExponent + 1 - f.precision = e := ⟨_, rfl⟩
  have whole : q / powInt 2 e = (m * 2 ^ (k - e).toNat : ℤ) := by
    have order : 0 ≤ k - e := by omega
    rw [powInt_eq_zpow, Int.cast_mul, Int.cast_pow, Int.cast_ofNat, ← zpow_natCast, Int.toNat_of_nonneg order,
      zpow_sub₀ two_ne_zero, ← mul_div_assoc, ← value]
  have rounded : roundTo (powInt 2 e) q = q := by
    have unit : powInt 2 e ≠ 0 := by
      rw [powInt_eq_zpow]
      exact (zpow_pos two_pos e).ne'
    rw [roundTo, whole, nearest_intCast, ← whole, div_mul_cancel₀ _ unit]
  simp only [round, zero, if_false, exponent, rounded]
  rw [magnitude_eq_abs, powInt_eq_zpow, if_neg (not_le.mpr range)]

theorem holds_binary64 {x : Floating} (holds : binary32.Holds x) : binary64.Holds x := by
  cases x with
  | finite q =>
    obtain ⟨m, k, bits, least, value, range⟩ := holds
    refine ⟨m, k, bits.trans (by decide), ?_, value, range.trans ?_⟩
    · simp only [binary32, binary64] at least ⊢
      omega
    · exact zpow_lt_zpow_right₀ one_lt_two (by decide)
  | _ => trivial

theorem convert_of_holds {f : Format} {x : Floating} (holds : f.Holds x) : f.convert x = x := by
  cases x with
  | finite q => exact round_of_holds holds
  | _ => rfl

end Format

end Bladewright.Numeral
