import Bladewright.Proofs.Coeff.CanonicalProduct

/-!
Whole powers of evaluated expressions are evaluated: a number is raised, exponents of a power are multiplied, a
product is raised factor by factor, and a name, a read or a sum is left under its exponent.
-/
namespace Bladewright

open List

namespace Scalar

variable {n : ℤ}

theorem power_exact {q : ℚ} (nonzero : n < 0 → q ≠ 0) : (exact q).power n = exact (q ^ n) := by
  have finite : ¬ (q = 0 ∧ n < 0) := fun both => nonzero both.2 both.1
  rw [power, if_neg finite, Numeral.powInt_eq_zpow]

theorem power_zero_of_neg (negative : n < 0) : (exact 0).power n = unsigned := if_pos ⟨rfl, negative⟩

theorem Arises.power {c : Scalar} (arises : c.Arises) (n : ℤ) : (c.power n).Arises := by
  cases c with
  | exact | unsigned =>
    unfold Scalar.power
    simp only
    split <;> trivial
  | undefined => trivial
  | approx | infinity => exact arises.elim

end Scalar

namespace Coeff

open Scalar

variable {names : String → Prop} {k : Nat} {ops : Operations}

/-! ### Numbers -/

theorem powerUnsigned_num {c : Scalar} (arises : c.Arises) {n : ℤ} (zero : n ≠ 0) :
    powerUnsigned ops (num c) (ofInt n) = num (c.power n) := by
  cases c with
  | exact q =>
    by_cases one : q = 1
    · subst one
      rw [power_exact fun _ => one_ne_zero, one_zpow]
      rfl
    · have resolved : powerUnsigned ops (num (.exact q)) (ofInt n) =
          (numberPower ops (.exact q) (ofInt n)).getD (pow (num (.exact q)) (ofInt n)) := by
        unfold powerUnsigned
        split
        · rename_i same
          cases same
        · rename_i same _
          cases same
        · rename_i same _
          cases same
          exact absurd rfl one
        · rfl
      rw [resolved]
      by_cases vanishes : q = 0
      · subst vanishes
        simp only [numberPower, if_true, zeroPower, facts_ofInt]
        rcases lt_or_gt_of_ne zero with negative | positive
        · rw [power_zero_of_neg negative]
          simp [negative, not_lt.mpr negative.le]
        · rw [power_exact fun negative => absurd negative (not_lt.mpr positive.le), zero_zpow n zero]
          simp [positive, zero_eq]
      · simp [numberPower, vanishes, ofInt, Scalar.ofInt]
  | unsigned =>
    show (if (Scalar.ofInt n).isPositive && (Scalar.ofInt n).isFinite then num .unsigned else 0) = _
    rcases lt_or_gt_of_ne zero with negative | positive
    · simp [Scalar.ofInt, isPositive, Scalar.power, negative, not_lt.mpr negative.le, zero_eq, Scalar.zero_eq]
    · simp [Scalar.ofInt, isPositive, isFinite, Scalar.power, positive, not_lt.mpr positive.le]
  | undefined => rfl
  | approx | infinity => exact arises.elim

theorem operations_pow_num (depth : Nat) {c : Scalar} (arises : c.Arises) {n : ℤ} (zero : n ≠ 0) :
    (operations (depth + 2)).pow (num c) (ofInt n) = num (c.power n) := by
  by_cases one : n = 1
  · subst one
    have same : (operations (depth + 2)).pow (num c) (ofInt 1) = num c := by
      simp [operations, powerStep, ofInt, Scalar.ofInt]
    rw [same]
    cases c with
    | exact q => rw [power_exact (by simp), zpow_one]
    | unsigned | undefined => rfl
    | approx | infinity => exact arises.elim
  · show powerStep (operations (depth + 1)) (num c) (ofInt n) = _
    rw [powerStep_proper zero one, unsignedBase?]
    cases negative : c.isNegative with
    | false => exact powerUnsigned_num arises zero
    | true =>
      cases c with
      | exact q =>
        have below : q < 0 := by simpa [isNegative] using negative
        have opposite : Scalar.Arises (-.exact q) := trivial
        have sign : Scalar.isNegative (-.exact q) = false := by simp [exact_neg, isNegative, below.le]
        have size : Scalar.power (-.exact q) n = exact ((-q) ^ n) :=
          power_exact fun _ => neg_ne_zero.mpr below.ne
        rw [if_pos rfl, Option.elim_some, power_exact fun _ => below.ne]
        by_cases even : n % 2 = 0
        · rw [if_pos even, powerUnsigned_num opposite zero, size, (Int.even_iff.mpr even).neg_zpow]
        · have power : (operations (depth + 1)).pow (num (-.exact q)) (ofInt n) = num (exact ((-q) ^ n)) := by
            show powerStep (operations depth) (num (-.exact q)) (ofInt n) = _
            rw [powerStep_proper zero one, unsignedBase?, sign, ← size]
            exact powerUnsigned_num opposite zero
          rw [if_neg even, power]
          show num (-exact ((-q) ^ n)) = _
          rw [(Int.odd_iff.mpr (Int.emod_two_ne_zero.mp even)).neg_zpow, exact_neg, neg_neg]
      | unsigned | undefined => cases negative
      | approx | infinity => exact arises.elim

/-! ### Powers of powers -/

def wholePower (b : Coeff) (n : ℤ) : Coeff := if n = 1 then b else pow b (ofInt n)

variable {b e : Coeff}

theorem operations_pow_whole (depth : Nat) (bare : b.isBare) {n : ℤ} (zero : n ≠ 0) :
    (operations (depth + 1)).pow b (ofInt n) = wholePower b n := by
  by_cases one : n = 1
  · subst one
    simp [operations, powerStep, ofInt, Scalar.ofInt, wholePower]
  · rw [operations_pow_bare _ bare zero one, wholePower, if_neg one]

theorem toScalar?_wholePower (bare : b.isBare) (n : ℤ) : (wholePower b n).toScalar? = none := by
  unfold wholePower
  split
  · cases b <;> first | rfl | cases bare
  · rfl

theorem mul_one_single (depth : Nat) (symbolic : e.toScalar? = none) :
    (operations (depth + 1)).times (num 1) e = e := by
  rw [times_of_symbolic _ symbolic]
  have other : e.isOne = false := by cases e <;> first | rfl | cases symbolic
  have one : (num 1).isOne = true := by simp [isOne, Scalar.one_eq]
  have kept : [num 1, e].filter (!·.isOne) = [e] := by simp [other, one]
  show productStep (operations depth) [num 1, e] = e
  rw [productStep, kept]

theorem operations_pow_pow (depth : Nat) (bare : b.isBare) {m n : ℤ} (inner : m ≠ 0) (zero : n ≠ 0)
    (one : n ≠ 1) : (operations (depth + 2)).pow (pow b (ofInt m)) (ofInt n) = wholePower b (m * n) := by
  have parts : (pow b (ofInt m)).baseExponent = (b, ofInt m) := by
    cases b <;> first | rfl | cases bare
  have exponents : (operations (depth + 1)).times (ofInt m) (ofInt n) = ofInt (m * n) := by
    show num (.exact (m * n : ℚ)) = num (.exact ((m * n : ℤ) : ℚ))
    push_cast
    rfl
  have resolved : resolvePower (operations (depth + 1)) (pow b (ofInt m)) (ofInt n) = some (wholePower b (m * n)) := by
    simp only [resolvePower, parts, powerOfPower, toInt?_ofInt, Option.isSome_some, if_true, exponents]
    rw [operations_pow_whole depth bare (mul_ne_zero inner zero),
      mul_one_single depth (toScalar?_wholePower bare _)]
  show powerStep (operations (depth + 1)) (pow b (ofInt m)) (ofInt n) = _
  rw [powerStep_proper zero one]
  show (resolvePower (operations (depth + 1)) (pow b (ofInt m)) (ofInt n)).getD (pow (pow b (ofInt m)) (ofInt n)) = _
  rw [resolved, Option.getD_some]

theorem powerOf_wholePower (own : Base names k b) {exponent : ℤ → Prop} {n : ℤ} (holds : exponent n)
    (zero : n ≠ 0) : PowerOf (Base names k) exponent (wholePower b n) := by
  unfold wholePower
  split
  · exact .inl own
  · rename_i one
    exact .inr ⟨b, n, own, holds, zero, one, rfl⟩

theorem inv_pow (bare : b.isBare) {n : ℤ} (zero : n ≠ 0) : inv (pow b (ofInt n)) = wholePower b (-n) := by
  rw [← mul_neg_one n]
  exact operations_pow_pow 38 bare zero (by decide) (by decide)

/-! ### Powers of products -/

theorem evaluates_factors (depth : Nat) :
    Evaluates (operations (depth + 2)) (AnyPower names k) (fun _ => True)
      (AnyPower names k) where
  of_base power := power
  of_pow {b n} power _ zero one := by
    rcases power with own | ⟨b, m, own, -, nonzero, -, rfl⟩
    · rw [operations_pow_bare _ own.2 zero one]
      exact .inr ⟨b, n, own, trivial, zero, one, rfl⟩
    · rw [operations_pow_pow depth own.2 nonzero zero one]
      exact powerOf_wholePower own trivial (mul_ne_zero nonzero zero)
  parts {b n} power _ zero one _ notPow := by
    rcases power with own | ⟨b, m, own, -, -, -, rfl⟩
    · rw [operations_pow_bare _ own.2 zero one]
      refine ⟨b, n, .inl own, trivial, ?_⟩
      have bare := own.2
      cases b <;> first | rfl | cases bare
    · have bare := own.2
      cases b <;> first | cases notPow | cases bare

theorem Canonical.isNumeric_eq_false (canonical : Canonical names k e) (symbolic : e.toScalar? = none) :
    e.isNumeric = false := by
  induction canonical with
  | num => cases symbolic
  | sym | only | component => simp [isNumeric]
  | @pow _ b n _ bare _ _ ih =>
    have base : b.isNumeric = false := ih (by cases b <;> first | rfl | cases bare)
    simp [isNumeric, base]
  | @prod _ c fs _ _ _ plain nonempty _ _ ih =>
    obtain ⟨f, mem⟩ := exists_mem_of_ne_nil fs nonempty
    have factor : f.isNumeric = false := ih f mem (by
      have power := plain f mem
      cases f <;> first | rfl | cases power)
    simpa [isNumeric] using ⟨f, mem, factor⟩
  | @beside _ q fs _ _ _ plain nonempty ih =>
    obtain ⟨f, mem⟩ := exists_mem_of_ne_nil fs nonempty
    have factor : f.isNumeric = false := ih f mem (by
      have power := plain f mem
      cases f <;> first | rfl | cases power)
    simpa [isNumeric] using ⟨f, mem, factor⟩
  | @sum _ c ts _ _ proper nonempty ih =>
    obtain ⟨t, mem⟩ := exists_mem_of_ne_nil ts nonempty
    have term : t.isNumeric = false := ih t mem (by
      have proper := proper t mem
      cases t <;> first | rfl | cases proper)
    simpa [isNumeric] using ⟨t, mem, term⟩

theorem isTaken_pow (f : Coeff) (n : ℤ) : IsTaken (pow f (ofInt n)) := by
  intro ops fuel queue taken
  cases f with
  | num c =>
    cases c with
    | exact q =>
      obtain ⟨p, m, parts⟩ := baseExponent_num q n
      simp only [ofInt, Scalar.ofInt] at parts ⊢
      simp [takeUp, parts]
    | _ => simp [takeUp, baseExponent, ofInt, Scalar.ofInt]
  | _ => rfl

theorem take_number_power (depth : Nat) {c : Scalar} (arises : c.Arises) {n : ℤ} (zero : n ≠ 0) (s : Sorted) :
    s.take (operations (depth + 2)) (pow (num c) (ofInt n)) = { s with number := s.number * c.power n } := by
  have raised {p : Scalar} {m : ℤ} (arises : p.Arises) (nonzero : m ≠ 0)
      (parts : (pow (num c) (ofInt n)).baseExponent = (num p, ofInt m)) :
      s.take (operations (depth + 2)) (pow (num c) (ofInt n)) = { s with number := s.number * p.power m } := by
    have value := operations_pow_num depth arises nonzero
    simp only [ofInt, Scalar.ofInt] at value parts
    simp [Sorted.take, parts, ofInt, Scalar.ofInt, value]
  cases c with
  | exact q =>
    by_cases unit : isUnitFraction (num (.exact q))
    · have nonzero : q ≠ 0 := by
        rintro rfl
        simp [isUnitFraction] at unit
      have parts : (pow (num (.exact q)) (ofInt n)).baseExponent = (num (.exact q⁻¹), ofInt (-n)) := by
        rw [← oppositeExponent_ofInt]
        exact if_pos unit
      rw [raised (p := .exact q⁻¹) trivial (neg_ne_zero.mpr zero) parts, power_exact fun _ => inv_ne_zero nonzero,
        power_exact fun _ => nonzero, inv_zpow', neg_neg]
    · exact raised arises zero (if_neg unit)
  | unsigned => exact raised arises zero rfl
  | undefined => exact raised arises zero rfl
  | approx | infinity => exact arises.elim

theorem foldl_take_raised (n : ℤ) {fs : List Coeff} (symbolic : ∀ f ∈ fs, f.toScalar? = none) (s : Sorted) :
    (fs.map fun f => pow f (ofInt n)).foldl (Sorted.take ops) s =
      { s with powers := (fs.map fun f => (f, ofInt n)).reverse ++ s.powers } := by
  induction fs generalizing s with
  | nil => rfl
  | cons f fs ih =>
    rw [forall_mem_cons] at symbolic
    have own : s.take ops (pow f (ofInt n)) = { s with powers := (f, ofInt n) :: s.powers } := by
      cases f with
      | num => cases symbolic.1
      | _ => rfl
    rw [map_cons, foldl_cons, own, ih symbolic.2]
    simp

def raisedNumber (c : Scalar) (n : ℤ) : Scalar := if c.isOne then 1 else 1 * c.power n

section

variable {c d : Scalar} {n : ℤ} {fs : List Coeff}
  (raised : ∀ s : Sorted, s.take ops (pow (num c) (ofInt n)) = { s with number := s.number * d })
  (symbolic : ∀ f ∈ fs, f.toScalar? = none)
include raised symbolic

theorem sortFactors_raised : sortFactors ops ((prod c fs).multiplicands.map fun f => pow f (ofInt n)) =
    { number := if c.isOne then 1 else 1 * d, powers := fs.map fun f => (f, ofInt n) } := by
  unfold sortFactors multiplicands
  cases one : c.isOne with
  | true => simp [one, foldl_take_raised n symbolic]
  | false => simp [one, raised, foldl_take_raised n symbolic]

theorem multiply_raised : multiply ops ((prod c fs).multiplicands.map fun f => pow f (ofInt n)) =
    (evaluateAll ops (gather ops (fs.map fun f => (f, ofInt n)))).elim (num .undefined)
      (settleNumber (if c.isOne then 1 else 1 * d)) := by
  refine multiply_eq ?_
  rw [takeUp_taken, reverse_nil, nil_append]
  · exact sortFactors_raised raised symbolic
  · intro e mem
    obtain ⟨f, -, rfl⟩ := mem_map.mp mem
    exact isTaken_pow f n

end

theorem operations_pow_prod (depth : Nat) {c : Scalar} {fs : List Coeff} (symbolic : (prod c fs).isNumeric = false)
    (several : 2 ≤ (prod c fs).multiplicands.length) {n : ℤ} (zero : n ≠ 0) (one : n ≠ 1) :
    (operations (depth + 2)).pow (prod c fs) (ofInt n) =
      multiply (operations depth) ((prod c fs).multiplicands.map fun f => pow f (ofInt n)) := by
  have unsigned : unsignedBase? (operations (depth + 1)) (prod c fs) = none := by
    simp [unsignedBase?, symbolic]
  have resolved : powerUnsigned (operations (depth + 1)) (prod c fs) (ofInt n) =
      productStep (operations depth) ((prod c fs).multiplicands.map fun f => pow f (ofInt n)) := by
    show (powerOfProduct (operations (depth + 1)) c fs (ofInt n)).getD (pow (prod c fs) (ofInt n)) = _
    simp only [powerOfProduct, toInt?_ofInt, Option.isSome_some, if_true, Option.getD_some]
    rfl
  show powerStep (operations (depth + 1)) (prod c fs) (ofInt n) = _
  rw [powerStep_proper zero one, unsigned, Option.elim_none, resolved]
  generalize (prod c fs).multiplicands = args at several
  have kept : (args.map fun f => pow f (ofInt n)).filter (!·.isOne) = args.map fun f => pow f (ofInt n) := by
    rw [filter_eq_self]
    intro e mem
    obtain ⟨f, -, rfl⟩ := mem_map.mp mem
    rfl
  obtain _ | ⟨f, _ | ⟨g, args⟩⟩ := args
  · simp at several
  · simp at several
  · rw [productStep, kept]
    rfl

theorem arises_raisedNumber {c : Scalar} (arises : c.Arises) (n : ℤ) : (raisedNumber c n).Arises := by
  unfold raisedNumber
  split
  · trivial
  · exact arises_one.mul (arises.power n)

theorem multiplied_pow_prod (depth : Nat) {c : Scalar} {fs : List Coeff} (canonical : Canonical names k (prod c fs))
    (arises : c.Arises) (factors : ∀ f ∈ fs, Canonical names k f) (plain : ∀ f ∈ fs, f.isFactor)
    (several : 2 ≤ (prod c fs).multiplicands.length) {n : ℤ} (zero : n ≠ 0) (one : n ≠ 1) :
    Multiplied (raisedNumber c n) (AnyPower names k)
      ((operations (depth + 4)).pow (prod c fs) (ofInt n)) := by
  have powers : ∀ f ∈ fs, AnyPower names k f :=
    fun f mem => (factors f mem).powerOf (plain f mem)
  have symbolic : ∀ f, AnyPower names k f → f.toScalar? = none :=
    fun f power => power.toScalar? Base.isBare
  have listed : Powers (AnyPower names k) (fun _ => True) (fs.map fun f => (f, ofInt n)) := by
    intro p mem
    obtain ⟨f, inside, rfl⟩ := mem_map.mp mem
    exact ⟨powers f inside, n, trivial, rfl⟩
  rw [operations_pow_prod (depth + 2) (canonical.isNumeric_eq_false rfl) several zero one,
    multiply_raised (take_number_power depth arises zero) fun f mem => symbolic f (powers f mem)]
  have add : ∀ m n : ℤ, True → True → True := fun _ _ _ _ => trivial
  rcases (evaluates_factors depth).evaluateAll add (listed.gather add) with constant | ⟨values, found, kinds⟩
  · rw [constant]
    exact .constant trivial
  · rw [found]
    exact multiplied_settleNumber (arises_raisedNumber arises n) symbolic kinds

/-! ### Numbers beside infinite products -/

theorem gather_single (b : Coeff) (n : ℤ) : gather ops [(b, ofInt n)] = [(b, ofInt n)] := by
  show [(b, if (Scalar.ofInt n).isZero then num (Scalar.ofInt n) else num (Scalar.ofInt n * .exact (1 : ℕ)))] = _
  have same : Scalar.ofInt n * .exact (1 : ℕ) = Scalar.ofInt n := by
    rw [Scalar.ofInt, exact_mul, Nat.cast_one, mul_one]
  rw [same, ite_self]
  rfl

theorem evaluateAll_single {n : ℤ} (zero : n ≠ 0) (one : n ≠ 1) (power : ops.pow b (ofInt n) = e)
    (notPow : e.isPow = false) : evaluateAll ops [(b, ofInt n)] = some [e] := by
  have nonzero : (Scalar.ofInt n).isZero = false := by simp [Scalar.ofInt, zero]
  have finite : cancelsInfinity [(b, ofInt n)] = false := by
    cases b with
    | prod c | sum c =>
      show ((Scalar.ofInt n).isZero && !c.isFinite && c != .undefined || false) = false
      simp [nonzero]
    | _ => rfl
  have values : evaluatePowers ops [(b, ofInt n)] = ([e], [(b, ofInt n)], false) := by
    unfold evaluatePowers
    rw [foldr_cons, foldr_nil]
    dsimp only
    split
    · rename_i same
      exact absurd (by simpa [ofInt, Scalar.ofInt] using same) one
    · simp [zero, power, notPow]
  simp [evaluateAll, finite, values]

theorem infinite_pow (depth : Nat) {fs : List Coeff} (factors : ∀ f ∈ fs, Canonical names k f)
    (plain : ∀ f ∈ fs, f.isFactor) (nonempty : fs ≠ []) {n : ℤ} (zero : n ≠ 0) (one : n ≠ 1) :
    (∃ c : Scalar, c.Arises ∧ (operations (depth + 4)).pow (prod .unsigned fs) (ofInt n) = num c) ∨
      ∃ gs, (operations (depth + 4)).pow (prod .unsigned fs) (ofInt n) = prod .unsigned gs ∧
        (∀ g ∈ gs, AnyPower names k g) ∧ gs ≠ [] := by
  have infinite : Scalar.isOne .unsigned = false := rfl
  have canonical : Canonical names k (prod .unsigned fs) :=
    .prod trivial rfl factors plain nonempty (by simp [infinite]) (absurd rfl)
  have several : 2 ≤ (prod .unsigned fs).multiplicands.length := by
    have := length_pos_iff.mpr nonempty
    simp [multiplicands, infinite]
    omega
  have number : raisedNumber .unsigned n = .unsigned ∨ raisedNumber .unsigned n = .exact 0 := by
    by_cases negative : n < 0
    · refine .inr ?_
      simp [raisedNumber, infinite, Scalar.power, negative, Scalar.one_eq, Scalar.zero_eq, exact_mul]
    · refine .inl ?_
      simp only [raisedNumber, infinite, Scalar.power, negative, if_false]
      rfl
  have product := multiplied_pow_prod depth canonical trivial factors plain several zero one
  generalize (operations (depth + 4)).pow (prod .unsigned fs) (ofInt n) = e at product
  cases product with
  | constant arises => exact .inl ⟨_, arises, rfl⟩
  | single one => rcases number with same | same <;> rw [same] at one <;> simp [infinite] at one
  | several nonzero factors nonempty =>
    rcases number with same | same
    · rw [same]
      exact .inr ⟨_, rfl, factors, nonempty⟩
    · simp [same] at nonzero
  | spread exact zero =>
    rcases number with same | same
    · cases same.symm.trans exact
    · cases same.symm.trans exact
      exact absurd rfl zero

theorem canonical_raise_beside {q : ℚ} (nonzero : q ≠ 0) (notOne : q ≠ 1) {fs : List Coeff}
    (factors : ∀ f ∈ fs, Canonical names k f) (plain : ∀ f ∈ fs, f.isFactor) (nonempty : fs ≠ []) {n : ℤ}
    (zero : n ≠ 0) (one : n ≠ 1) : Canonical names k (raise (prod (.exact q) [prod .unsigned fs]) (ofInt n)) := by
  have canonical := Canonical.beside nonzero notOne factors plain nonempty
  have several : 2 ≤ (prod (.exact q) [prod .unsigned fs]).multiplicands.length := by simp [multiplicands, notOne]
  have number : raisedNumber (.exact q) n = .exact (q ^ n) := by
    simp [raisedNumber, notOne, power_exact fun _ => nonzero, Scalar.one_eq, exact_mul]
  have power : q ^ n ≠ 0 := zpow_ne_zero n nonzero
  have raised : raise (prod (.exact q) [prod .unsigned fs]) (ofInt n) =
      (evaluateAll (operations 38) (gather (operations 38) [(prod .unsigned fs, ofInt n)])).elim (num .undefined)
        (settleNumber (.exact (q ^ n))) := by
    rw [← number]
    exact (operations_pow_prod 38 (canonical.isNumeric_eq_false rfl) several zero one).trans
      (multiply_raised (take_number_power 36 (c := .exact q) trivial zero) (by simp [toScalar?]))
  rw [raised, gather_single]
  rcases infinite_pow 34 factors plain nonempty zero one with ⟨c, arises, value⟩ | ⟨gs, value, powers, nonempty⟩
  · have settled : settleNumber (.exact (q ^ n)) [num c] =
        if Scalar.exact (q ^ n) * c = .undefined then num .undefined else num (.exact (q ^ n) * c) := by
      simp only [settleNumber, isZero_exact, power, decide_false, Bool.false_eq_true, if_false]
      rfl
    rw [evaluateAll_single zero one value rfl, Option.elim_some, settled]
    split
    · exact .num trivial
    · exact .num (Arises.mul trivial arises)
  · have settled : settleNumber (.exact (q ^ n)) [prod .unsigned gs] =
        if (Scalar.exact (q ^ n)).isOne then prod .unsigned gs else prod (.exact (q ^ n)) [prod .unsigned gs] := by
      rw [settleNumber_exact power (by simp [toScalar?])]
      rfl
    obtain ⟨infinite, -⟩ := isRest_unsigned (fun g mem => (powers g mem).canonical)
      (fun g mem => (powers g mem).isFactor Base.isBare) nonempty (q ^ n) power
    rw [evaluateAll_single zero one value rfl, Option.elim_some, settled]
    exact infinite

theorem canonical_raise (canonical : Canonical names k b) (n : ℤ) : Canonical names k (raise b (ofInt n)) := by
  by_cases zero : n = 0
  · subst zero
    have same : raise b (ofInt 0) = 1 := by
      show powerStep (operations 39) b (ofInt 0) = 1
      simp [powerStep, ofInt, Scalar.ofInt]
    rw [same]
    exact .num trivial
  by_cases one : n = 1
  · subst one
    have same : raise b (ofInt 1) = b := by
      show powerStep (operations 39) b (ofInt 1) = b
      simp [powerStep, ofInt, Scalar.ofInt]
    rwa [same]
  have stays (bare : b.isBare) : Canonical names k (raise b (ofInt n)) := by
    rw [raise, operations_pow_bare _ bare zero one]
    exact .pow canonical bare zero one
  cases canonical with
  | num arises =>
    have power := operations_pow_num 38 arises zero
    exact (show raise _ (ofInt n) = _ from power) ▸ .num (arises.power n)
  | pow base bare nonzero =>
    have power := operations_pow_pow 38 bare nonzero zero one
    have whole : AnyPower names k (wholePower _ _) :=
      powerOf_wholePower ⟨base, bare⟩ trivial (mul_ne_zero nonzero zero)
    exact (show raise _ (ofInt n) = _ from power) ▸ whole.canonical
  | @prod _ c fs arises nonzero factors plain nonempty several alone =>
    have parts : 2 ≤ (Coeff.prod c fs).multiplicands.length := by
      unfold multiplicands
      simp only
      split
      · rename_i one
        exact several one
      · have := length_pos_iff.mpr nonempty
        simp
        omega
    exact (multiplied_pow_prod 36 (.prod arises nonzero factors plain nonempty several alone) arises factors plain parts
      zero one).canonical (arises_raisedNumber arises n)
  | beside nonzero notOne factors plain nonempty =>
    exact canonical_raise_beside nonzero notOne factors plain nonempty zero one
  | sum _ terms => exact stays (isBare_sum terms)
  | _ => exact stays rfl

end Coeff

end Bladewright
