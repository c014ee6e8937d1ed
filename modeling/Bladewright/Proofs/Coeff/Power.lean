import Bladewright.Proofs.Coeff.Product
import Bladewright.Proofs.Numeral.Rounding

/-!
Whole powers keep the value, of numbers, powers, products and sums, and so do the operations that resolve each other,
to every depth.
-/
namespace Bladewright.Coeff

open Scalar

variable {r : Reading} {ops : Operations}

variable {e b a : Coeff} {n : ℤ} {c : Scalar} {x : ℚ}

theorem means_numberPower {q : ℚ} (nonzero : n < 0 → q ≠ 0)
    (resolved : numberPower ops (.exact q) (ofInt n) = some e) : Means r e (q ^ n) := by
  by_cases zero : q = 0
  · have nonneg : 0 ≤ n := not_lt.mp fun negative => nonzero negative zero
    subst zero
    simp only [numberPower, if_true, zeroPower, facts_ofInt] at resolved
    rcases nonneg.eq_or_lt with rfl | positive
    · cases resolved
      simpa using means_one
    · have known : decide (0 < n) = true := by simpa using positive
      simp only [known, beq_self_eq_true, if_true] at resolved
      cases resolved
      rw [zero_zpow n positive.ne']
      exact means_zero
  · simp only [numberPower, zero, if_false, ofInt, Scalar.ofInt, Rat.den_intCast, if_true, power, Rat.num_intCast,
      false_and, Numeral.powInt_eq_zpow] at resolved
    cases resolved
    exact means_num _

theorem means_powerOfPower (sound : ops.Sound r) {m : ℤ} (base : Defined r b)
    (inner : m < 0 → value r b ≠ 0) (outer : n < 0 → value r b ^ m ≠ 0)
    (resolved : powerOfPower ops b (ofInt m) (ofInt n) = some e) : Means r e ((value r b ^ m) ^ n) := by
  have exponents : ops.times (ofInt m) (ofInt n) = ofInt (m * n) := by
    show num (.exact (m * n : ℚ)) = num (.exact ((m * n : ℤ) : ℚ))
    push_cast
    rfl
  have power : Means r (ops.pow b (ofInt (m * n))) ((value r b ^ m) ^ n) := by
    rw [← zpow_mul]
    refine sound.pow base fun negative zero => ?_
    rcases mul_neg_iff.mp negative with ⟨positive, below⟩ | ⟨below, -⟩
    · exact outer below (by rw [zero, zero_zpow m positive.ne'])
    · exact inner below zero
  simp only [powerOfPower, toInt?_ofInt, Option.isSome_some, if_true, exponents, Option.some.injEq] at resolved
  rw [← resolved]
  simpa [Scalar.one_eq] using sound.times (means_num 1) power

theorem means_powerOfProduct (sound : ops.Sound r) {fs : List Coeff}
    (base : Defined r (prod c fs)) (nonzero : n < 0 → value r (prod c fs) ≠ 0)
    (resolved : powerOfProduct ops c fs (ofInt n) = some e) : Means r e (value r (prod c fs) ^ n) := by
  obtain ⟨defined, whole⟩ := base.multiplicands
  have powers : ∀ f ∈ (prod c fs).multiplicands, Means r (pow f (ofInt n)) (value r f ^ n) := by
    intro f mem
    refine means_pow (defined f mem).means fun negative zero => nonzero negative ?_
    rw [← whole]
    exact List.prod_eq_zero (List.mem_map.mpr ⟨f, mem, zero⟩)
  simp only [powerOfProduct, toInt?_ofInt, Option.isSome_some, if_true, Option.some.injEq] at resolved
  have means := sound.mul (allDefined_map powers)
  rw [product_map powers, prod_map_zpow, product, whole] at means
  rwa [← resolved]

theorem powerOfSum_eq_none {ts : List Coeff} (base : Defined r (sum c ts)) (n : ℤ) :
    powerOfSum ops c ts (ofInt n) = none := by
  have finite : (sum c ts).summands.any (fun e => e.splitNumber.1.isFinite == false) = false := by
    rw [List.any_eq_false]
    intro t mem
    rw [(base.summands.1 t mem).splitNumber.1.eq]
    simp [isFinite]
  have parts : complexParts? (sum c ts) = none := by
    unfold complexParts?
    split
    · rename_i same
      cases same
      cases base with
      | sum q terms => cases terms (const .imaginary) (by simp)
    · rename_i d same
      cases same
      cases base with
      | sum q terms =>
        cases terms (prod d [const .imaginary]) (by simp) with
        | prod p factors => cases factors (const .imaginary) (by simp)
    · rfl
  unfold powerOfSum
  simp only [finite, Bool.and_false, Bool.false_eq_true, if_false, parts]
  rfl

theorem means_resolvePower (sound : ops.Sound r) (base : Defined r b)
    (nonzero : n < 0 → value r b ≠ 0) (resolved : resolvePower ops b (ofInt n) = some e) :
    Means r e (value r b ^ n) := by
  have parts := base.baseExponent
  cases base with
  | num q => exact means_numberPower nonzero resolved
  | @pow b' m inner nonzero' =>
    obtain ⟨m', same, base', nonzero''⟩ := parts.defined.of_pow
    have value_eq := parts.value_eq
    rw [same, value_pow] at value_eq
    rw [← value_eq]
    refine means_powerOfPower sound base' nonzero'' (value_eq ▸ nonzero) ?_
    rw [← same]
    exact resolved
  | prod c factors => exact means_powerOfProduct sound (.prod c factors) nonzero resolved
  | sum c terms =>
    rw [resolvePower, powerOfSum_eq_none (.sum c terms)] at resolved
    cases resolved
  | _ => cases resolved

theorem means_powerUnsigned (sound : ops.Sound r) (base : Defined r b)
    (nonzero : n < 0 → value r b ≠ 0) : Means r (powerUnsigned ops b (ofInt n)) (value r b ^ n) := by
  have general : Means r ((resolvePower ops b (ofInt n)).getD (pow b (ofInt n))) (value r b ^ n) := by
    cases resolved : resolvePower ops b (ofInt n) with
    | none => exact means_pow base.means nonzero
    | some e => exact means_resolvePower sound base nonzero resolved
  unfold powerUnsigned
  split
  · cases base
  · rename_i same
    cases same
  · show Means r 1 ((1 : ℚ) ^ n)
    rw [one_zpow]
    exact means_one
  · exact general

theorem means_unsignedBase (sound : ops.Sound r) {size : Coeff} (base : Defined r b)
    (found : unsignedBase? ops b = some size) : Means r size (-value r b) := by
  cases base with
  | num q =>
    simp only [unsignedBase?] at found
    split at found
    · cases found
      exact means_num (-q)
    · cases found
  | prod c factors =>
    simp only [unsignedBase?] at found
    split at found
    · cases found
      exact sound.opposite (Defined.prod c factors).means
    · cases found
  | _ => cases found

theorem means_powerStep (sound : ops.Sound r) (base : Defined r b)
    (nonzero : n < 0 → value r b ≠ 0) : Means r (powerStep ops b (ofInt n)) (value r b ^ n) := by
  simp only [powerStep, ofInt, Scalar.ofInt, Rat.den_intCast, Int.cast_eq_zero, Int.cast_eq_one, ne_eq,
    not_true_eq_false, if_false]
  split
  · rename_i zero
    rw [zero, zpow_zero]
    exact means_one
  · split
    · rename_i one
      rw [one, zpow_one]
      exact base.means
    · split
      · rename_i size found
        have means := means_unsignedBase sound base found
        have nonzero' : n < 0 → value r size ≠ 0 := by
          rw [means.value_eq]
          exact fun negative => neg_ne_zero.mpr (nonzero negative)
        by_cases even : (n : ℚ).num % 2 = 0
        · rw [if_pos even]
          rw [Rat.num_intCast] at even
          have power := means_powerUnsigned sound means.defined nonzero'
          rwa [means.value_eq, (Int.even_iff.mpr even).neg_zpow] at power
        · rw [if_neg even]
          rw [Rat.num_intCast] at even
          have power := sound.opposite (sound.pow means.defined nonzero')
          rwa [means.value_eq, (Int.odd_iff.mpr (Int.emod_two_ne_zero.mp even)).neg_zpow, neg_neg] at power
      · exact means_powerUnsigned sound base nonzero

theorem sound_operations (depth : Nat) : (operations depth).Sound r := by
  induction depth with
  | zero =>
    refine ⟨fun {es} defined => ?_, fun base nonzero => means_pow base.means nonzero⟩
    have means := means_prod 1 defined
    rw [one_mul] at means
    simpa [operations, Scalar.one_eq, product] using means
  | succ depth sound => exact ⟨means_productStep sound, means_powerStep sound⟩

/-! ### Products, powers and reciprocals -/

theorem means_mulAll {es : List Coeff} (defined : AllDefined r es) : Means r (mulAll es) (product r es) :=
  (sound_operations depthLimit).mul defined

theorem means_raise (base : Defined r b) (nonzero : n < 0 → value r b ≠ 0) :
    Means r (raise b (ofInt n)) (value r b ^ n) :=
  (sound_operations depthLimit).pow base nonzero

theorem Means.mul {y : ℚ} (left : Means r a x) (right : Means r b y) : Means r (mul a b) (x * y) :=
  (sound_operations depthLimit).times left right

theorem Means.neg (means : Means r a x) : Means r (neg a) (-x) :=
  (sound_operations depthLimit).opposite means

theorem Means.inv (means : Means r a x) (nonzero : x ≠ 0) : Means r (inv a) x⁻¹ := by
  have power := means_raise (n := -1) means.defined fun _ => means.value_eq ▸ nonzero
  rwa [means.value_eq, zpow_neg_one] at power

end Bladewright.Coeff
