import Bladewright.Proofs.Coeff.PowerTerms
import Mathlib.Data.Rat.Floor

/-!
Expansion keeps the value: numerator and denominator make up the expression, products of sums and whole powers of sums
are multiplied out to what they come to, and applying such rules everywhere until nothing changes does not change the
value.
-/
namespace Bladewright.Coeff

open List Scalar Coeff

variable {r : Reading}

variable {e : Coeff} {x : ℚ} {es negative nonnegative other : List Coeff} {n : ℤ}

theorem Means.through {f : Coeff → Coeff} (kept : ∀ {e}, Defined r e → Means r (f e) (value r e))
    (means : Means r e x) : Means r (f e) x :=
  means.value_eq ▸ kept means.defined

/-! ### Numerator and denominator -/

/-- Factors above and below a bar that come to a value. -/
structure Fraction (r : Reading) (parts : List Coeff × List Coeff) (x : ℚ) : Prop where
  above : AllDefined r parts.1
  below : AllDefined r parts.2
  nonzero : product r parts.2 ≠ 0
  value_eq : x = product r parts.1 / product r parts.2

theorem fraction_over_one (defined : Defined r e) : Fraction r ([e], []) (value r e) :=
  ⟨by simpa using defined, allDefined_nil, by simp, by simp⟩

theorem fraction_under_one (means : Means r e x⁻¹) (nonzero : x ≠ 0) : Fraction r ([], [e]) x :=
  ⟨allDefined_nil, by simpa using means.defined, by simpa [means.value_eq] using nonzero,
    by simp [means.value_eq]⟩

theorem fraction_num (q : ℚ) : Fraction r (fractionParts (num (.exact q))) q := by
  unfold fractionParts
  simp only
  split
  · exact fraction_over_one (.num q)
  · have bottom : Means r (ofInt q.den) q.den := by simpa using means_ofInt (r := r) (q.den : ℤ)
    have top := means_ofInt (r := r) q.num
    have nonzero : (q.den : ℚ) ≠ 0 := by simp
    have below : product r [ofInt q.den] = q.den := by simp
    split
    · rename_i unit
      refine ⟨allDefined_nil, by simpa using bottom.defined, by rw [below]; exact nonzero, ?_⟩
      rw [below, product_nil]
      conv_lhs => rw [← Rat.num_div_den q, unit]
      simp
    · refine ⟨by simpa using top.defined, by simpa using bottom.defined, by rw [below]; exact nonzero, ?_⟩
      rw [below, product_cons, product_nil, mul_one, value_ofInt]
      exact (Rat.num_div_den q).symm

theorem fraction_pow {b : Coeff} (defined : Defined r (pow b e)) :
    Fraction r (fractionParts (pow b e)) (value r (pow b e)) := by
  have parts := defined.baseExponent
  obtain ⟨n, exponent, base, nonzero⟩ := parts.defined.of_pow
  have value_eq := parts.value_eq
  rw [exponent, value_pow] at value_eq
  unfold fractionParts
  simp only [exponent, facts_ofInt]
  by_cases negative : n < 0
  · have known : (some (decide (n < 0)) == some true && some true == some true) = true := by simp [negative]
    rw [if_pos known]
    have below : Means r (if (ofInt n).toInt? == some (-1) then (pow b e).baseExponent.1
        else raise (pow b e).baseExponent.1 (neg (ofInt n))) (value r (pow b e))⁻¹ := by
      rw [← value_eq, ← zpow_neg]
      split
      · rename_i unit
        obtain rfl : n = -1 := by simpa using unit
        simpa using base.means
      · have opposite : neg (ofInt n) = ofInt (-n) := by
          show num (.exact (-(n : ℚ))) = num (.exact ((-n : ℤ) : ℚ))
          push_cast
          rfl
        rw [opposite]
        exact means_raise base fun positive => absurd positive (by omega)
    have nonzero' : value r (pow b e) ≠ 0 := value_eq ▸ zpow_ne_zero n (nonzero negative)
    exact fraction_under_one below nonzero'
  · have known : (some (decide (n < 0)) == some true && some true == some true) = false := by simp [negative]
    rw [known]
    simp only [Bool.false_eq_true, if_false]
    split
    · exact fraction_over_one defined
    · exact fraction_over_one defined

theorem Defined.fractionParts (defined : Defined r e) : Fraction r (fractionParts e) (value r e) := by
  cases defined with
  | num q => exact fraction_num q
  | pow base nonzero => exact fraction_pow (.pow base nonzero)
  | sym known => exact fraction_over_one (.sym known)
  | only s => exact fraction_over_one (.only s)
  | component s i => exact fraction_over_one (.component s i)
  | prod c factors => exact fraction_over_one (.prod c factors)
  | sum c terms => exact fraction_over_one (.sum c terms)

theorem fraction_flatMap (defined : AllDefined r es) :
    Fraction r ((es.map fractionParts).flatMap (·.1), (es.map fractionParts).flatMap (·.2))
      (product r es) := by
  induction es with
  | nil => exact ⟨allDefined_nil, allDefined_nil, by simp, by simp⟩
  | cons e es ih =>
    obtain ⟨first, rest⟩ := allDefined_cons.mp defined
    obtain ⟨above, below, nonzero, value_eq⟩ := first.fractionParts
    obtain ⟨above', below', nonzero', value_eq'⟩ := ih rest
    refine ⟨above.append above', below.append below', ?_, ?_⟩
    · simpa using ⟨nonzero, nonzero'⟩
    · simp only [map_cons, flatMap_cons, product_append, product_cons]
      rw [value_eq, value_eq', div_mul_div_comm]

/-- Numerator and denominator of an expression, which does not divide by zero. -/
theorem Defined.fraction (defined : Defined r e) :
    ∃ x y, Means r e.fraction.1 x ∧ Means r e.fraction.2 y ∧ y ≠ 0 ∧ value r e = x / y := by
  obtain ⟨parts, whole⟩ := defined.multiplicands
  obtain ⟨above, below, nonzero, value_eq⟩ := fraction_flatMap parts
  exact ⟨_, _, means_mulAll above, means_mulAll below, nonzero, by rw [← whole]; exact value_eq⟩

/-! ### Products of sums -/

theorem total_products {left right : List Coeff} (first : AllDefined r left) (second : AllDefined r right) :
    AllDefined r (left.flatMap fun a => right.map fun b => mulAll [a, b]) ∧
      total r (left.flatMap fun a => right.map fun b => mulAll [a, b]) = total r left * total r right := by
  have cell {a : Coeff} (defined : Defined r a) :
      ∀ b ∈ right, Means r (mulAll [a, b]) (value r a * value r b) := by
    intro b mem
    have both : AllDefined r [a, b] := by simpa using ⟨defined, second b mem⟩
    simpa using means_mulAll both
  induction left with
  | nil => exact ⟨allDefined_nil, by simp⟩
  | cons a left ih =>
    obtain ⟨head, rest⟩ := allDefined_cons.mp first
    obtain ⟨tail, sum⟩ := ih rest
    refine ⟨(allDefined_map (cell head)).append tail, ?_⟩
    rw [flatMap_cons, total_append, total_map (cell head), sum_map_mul_left, sum, total_cons, add_mul]
    rfl

theorem expandSums_product {fuel : Nat} {sums : List Coeff} (enough : sums.length < fuel)
    (defined : AllDefined r sums) :
    AllDefined r (expandSums fuel sums) ∧ total r (expandSums fuel sums) = product r sums := by
  induction fuel generalizing sums with
  | zero => omega
  | succ fuel ih =>
    unfold expandSums
    split
    · exact ⟨by simpa using means_one.defined, by simp [means_one.value_eq]⟩
    · rename_i s
      obtain ⟨parts, sum⟩ := (defined s (by simp)).summands
      exact ⟨parts, by rw [total, sum, product_cons, product_nil, mul_one]⟩
    · rename_i several one
      have two : 2 ≤ sums.length := by
        rcases sums with _ | ⟨s, _ | ⟨t, rest⟩⟩
        · exact absurd rfl several
        · exact absurd rfl (one s)
        · simp
      have taken : AllDefined r (sums.take (sums.length / 2)) :=
        fun e mem => defined e (mem_of_mem_take mem)
      have dropped : AllDefined r (sums.drop (sums.length / 2)) :=
        fun e mem => defined e (mem_of_mem_drop mem)
      obtain ⟨left, leftSum⟩ := ih (by rw [length_take]; omega) taken
      obtain ⟨right, rightSum⟩ := ih (by rw [length_drop]; omega) dropped
      obtain ⟨all, sum⟩ := total_products left right
      have means := means_addAll all
      obtain ⟨parts, same⟩ := means.defined.summands
      refine ⟨parts, ?_⟩
      simp only
      rw [total, same, means.value_eq, sum, leftSum, rightSum, ← product_append, take_append_drop]

theorem total_times (factor : Means r e x) {ts : List Coeff} (defined : AllDefined r ts) :
    AllDefined r (ts.map fun t => mulAll [e, t]) ∧ total r (ts.map fun t => mulAll [e, t]) = x * total r ts := by
  have single : AllDefined r [e] := by simpa using factor.defined
  have both := total_products single defined
  simpa [factor.value_eq] using both

theorem means_multiplyOut (defined : Defined r e) : Means r (multiplyOut e) (value r e) := by
  have whole := defined.means
  cases defined with
  | @prod fs c factors =>
    unfold multiplyOut
    simp only
    split
    · exact whole
    · have defined : AllDefined r fs := factors
      have plain := means_mulAll (allDefined_cons.mpr ⟨Defined.num (r := r) c, defined.filter (!·.isSum)⟩)
      obtain ⟨terms, sum⟩ := expandSums_product (Nat.lt_succ_self _) (defined.filter (·.isSum))
      obtain ⟨all, times⟩ := total_times plain terms
      have means := means_addAll all
      rw [times, sum, product_cons, mul_assoc, mul_comm (product r (fs.filter (!·.isSum))),
        product_filter (·.isSum) fs] at means
      rw [value_prod]
      exact means
  | _ => exact whole

theorem means_quotient {n d : Coeff} {y : ℚ} (above : Means r n x) (below : Means r d y) (nonzero : y ≠ 0) :
    Means r (mul n d.inv) (x / y) := by
  rw [div_eq_mul_inv]
  exact above.mul (below.inv nonzero)

theorem Means.eq_one_of_isOne (means : Means r e x) (one : e.isOne = true) : x = 1 :=
  means.value_eq ▸ value_of_isOne means.defined one

theorem means_expandFraction (defined : Defined r e) : Means r (expandProduct.expandFraction e) (value r e) := by
  have whole := defined.means
  obtain ⟨x, y, above, below, nonzero, quotient⟩ := defined.fraction
  cases defined with
  | prod c factors =>
    unfold expandProduct.expandFraction
    simp only
    split
    · rename_i one
      rw [quotient, below.eq_one_of_isOne one, div_one]
      exact above.through means_multiplyOut
    · rw [quotient]
      exact (means_quotient above below nonzero).through means_multiplyOut
  | _ => exact whole

theorem means_expandProduct (defined : Defined r e) : Means r (expandProduct e) (value r e) := by
  have whole := defined.means
  obtain ⟨x, y, above, below, nonzero, quotient⟩ := defined.fraction
  have join {n d : Coeff} (above : Means r n x) (below : Means r d y) :
      Means r (multiplyOut (if n.isOne then d.inv else mul n d.inv)) (x / y) := by
    split
    · rename_i one
      rw [above.eq_one_of_isOne one, one_div]
      exact (below.inv nonzero).through means_multiplyOut
    · exact (means_quotient above below nonzero).through means_multiplyOut
  cases defined with
  | prod c factors =>
    unfold expandProduct
    simp only
    split
    · rw [quotient]
      split
      · exact join (above.through means_expandFraction) (below.through means_expandFraction)
      · exact join above below
    · exact whole
  | _ => exact whole

/-! ### Powers of sums -/

theorem natCast_num (k : Nat) : num (.exact k) = ofInt k := by
  rw [ofInt, Scalar.ofInt, Int.cast_natCast]

theorem product_powers (defined : AllDefined r es) (ks : List Nat) :
    AllDefined r ((es.zip ks).filterMap fun (s, k) => if k = 0 then none else some (raise s (num (.exact k)))) ∧
      product r ((es.zip ks).filterMap fun (s, k) => if k = 0 then none else some (raise s (num (.exact k)))) =
        monomial (es.map (value r)) ks := by
  induction es generalizing ks with
  | nil => exact ⟨allDefined_nil, rfl⟩
  | cons e es ih =>
    cases ks with
    | nil => exact ⟨allDefined_nil, rfl⟩
    | cons k ks =>
      obtain ⟨first, rest⟩ := allDefined_cons.mp defined
      obtain ⟨all, product⟩ := ih rest ks
      by_cases zero : k = 0
      · simp only [zip_cons_cons, filterMap_cons, zero, if_true]
        refine ⟨all, ?_⟩
        rw [product]
        simp [monomial]
      · simp only [zip_cons_cons, filterMap_cons, zero, if_false]
        have power := means_raise (n := (k : ℤ)) first fun negative => absurd negative (by omega)
        rw [natCast_num]
        refine ⟨allDefined_cons.mpr ⟨power.defined, all⟩, ?_⟩
        rw [product_cons, product, power.value_eq, zpow_natCast]
        simp [monomial]

theorem means_expandPower (defined : AllDefined r es) (n : Nat) : Means r (expandPower es n) (total r es ^ n) := by
  have term (t : List Nat × Nat) : Means r (mulAll (num (.exact t.2) ::
      (es.zip t.1).filterMap fun (s, k) => if k = 0 then none else some (raise s (num (.exact k)))))
      (t.2 * monomial (es.map (value r)) t.1) := by
    obtain ⟨all, product⟩ := product_powers defined t.1
    have means := means_mulAll (allDefined_cons.mpr ⟨Defined.num (r := r) t.2, all⟩)
    rwa [product_cons, product] at means
  have means := means_addAll (allDefined_map fun t (_ : t ∈ powerTerms es.length n) => term t)
  have sum := termSum_powerTerms (es.map (value r)) n
  rw [length_map] at sum
  rwa [total_map fun t _ => term t, ← termSum, sum] at means

theorem means_expandSumPower (defined : Defined r e) (positive : 1 < n) :
    Means r (expandSumPower e n) (value r e ^ n) := by
  obtain ⟨parts, sum⟩ := defined.summands
  have power := means_expandPower parts n.toNat
  rw [total, sum, ← zpow_natCast, Int.toNat_of_nonneg (by omega)] at power
  unfold expandSumPower
  have floor : (n : ℚ).floor = n := Rat.floor_intCast n
  simp only [floor, Rat.den_intCast, if_true]
  rw [if_neg (by omega)]
  exact power

theorem means_expandMultinomial (defined : Defined r e) : Means r (expandMultinomial e) (value r e) := by
  have whole := defined.means
  cases defined with
  | @pow b n base nonzero =>
    cases base with
    | @sum ts c terms =>
      have base : Defined r (sum (.exact c) ts) := .sum c terms
      show Means r (if 1 < (n : ℚ) then expandSumPower (sum (.exact c) ts) n
        else if (n : ℚ) < -1 then inv (expandSumPower (sum (.exact c) ts) (-n)) else _) _
      split
      · rename_i above
        rw [value_pow]
        exact means_expandSumPower base (by exact_mod_cast above)
      · split
        · rename_i below
          have below : n < -1 := by exact_mod_cast below
          have power := means_expandSumPower base (n := -n) (by omega)
          rw [zpow_neg] at power
          have means := power.inv (inv_ne_zero (zpow_ne_zero n (nonzero (by omega))))
          rw [inv_inv] at means
          rw [value_pow]
          push_cast at means
          exact means
        · exact whole
    | _ => exact whole
  | _ => exact whole

/-! ### Powers of products -/

variable {ops : Operations}

/-- Two lists of factors with a product in common. -/
structure Shared (r : Reading) (parts : List Coeff × List Coeff) (x : ℚ) : Prop where
  first : AllDefined r parts.1
  second : AllDefined r parts.2
  product_eq : product r parts.1 * product r parts.2 = x

theorem prod_map_neg (es : List Coeff) :
    (es.map fun e => -value r e).prod = (if es.length % 2 = 1 then -1 else 1) * product r es := by
  induction es with
  | nil => simp
  | cons e es ih =>
    rw [map_cons, prod_cons, ih, product_cons, length_cons]
    by_cases odd : es.length % 2 = 1
    · rw [if_pos odd, if_neg (by omega)]
      ring
    · rw [if_neg odd, if_pos (by omega)]
      ring

theorem shared_signs (sound : ops.Sound r) {o : Coeff}
    (first : AllDefined r nonnegative) (signs : AllDefined r negative) (second : AllDefined r other)
    (rest : Means r o x) :
    let o' := if negative.length % 2 = 1 then ops.opposite o else o
    Shared r (nonnegative ++ negative.map ops.opposite, if o'.isOne then other else other ++ [o'])
      (product r nonnegative * (x * product r negative) * product r other) := by
  intro o'
  have sign : Means r o' ((if negative.length % 2 = 1 then -1 else 1) * x) := by
    show Means r (if negative.length % 2 = 1 then ops.opposite o else o) _
    split
    · rw [neg_one_mul]
      exact sound.opposite rest
    · rw [one_mul]
      exact rest
  have sizes : ∀ e ∈ negative, Means r (ops.opposite e) (-value r e) :=
    fun e mem => sound.opposite (signs e mem).means
  have joined : product r (if o'.isOne then other else other ++ [o']) =
      product r other * ((if negative.length % 2 = 1 then -1 else 1) * x) := by
    split
    · rename_i one
      rw [sign.eq_one_of_isOne one, mul_one]
    · rw [product_append, product_cons, product_nil, mul_one, sign.value_eq]
  refine ⟨first.append (allDefined_map sizes), ?_, ?_⟩
  · show AllDefined r (if o'.isOne then other else other ++ [o'])
    split
    · exact second
    · exact second.append (by simpa using sign.defined)
  · rw [joined, product_append, product_map sizes, prod_map_neg]
    by_cases odd : negative.length % 2 = 1
    · rw [if_pos odd]
      ring
    · rw [if_neg odd]
      ring

theorem shared_shareSigns (sound : ops.Sound r)
    (first : AllDefined r nonnegative) (signs : AllDefined r negative) (second : AllDefined r other) :
    Shared r (shareSigns ops nonnegative negative other)
      (product r nonnegative * product r negative * product r other) := by
  unfold shareSigns
  split
  · exact ⟨first, second, by simp⟩
  · rename_i n
    have single : Defined r n := signs n (by simp)
    have joins : Shared r (nonnegative, other ++ [n]) (product r nonnegative * product r [n] * product r other) :=
      ⟨first, second.append signs, by simp; ring⟩
    split
    · rename_i empty
      rw [isEmpty_iff.mp empty]
      exact ⟨first, signs, by simp⟩
    · split
      · rename_i c _
        split
        · exact joins
        · obtain ⟨q, rfl⟩ := single.of_num
          refine ⟨first.append (allDefined_cons.mpr ⟨.num (-q), allDefined_nil⟩),
            second.append (allDefined_cons.mpr ⟨(means_ofInt (-1)).defined, allDefined_nil⟩), ?_⟩
          simp [exact_neg]
      · exact joins
  · rename_i n rest _
    obtain ⟨single, tail⟩ := allDefined_cons.mp signs
    have several := shared_signs sound first signs second (means_one (r := r))
    rw [one_mul] at several
    cases n with
    | num c =>
      simp only
      split
      · rw [product_cons]
        exact shared_signs sound first tail second single.means
      · exact several
    | _ => exact several

theorem product_three {p q t : Coeff → Bool} (es : List Coeff)
    (one : ∀ e, (p e = true ∧ q e = false ∧ t e = false) ∨ (p e = false ∧ q e = true ∧ t e = false) ∨
      (p e = false ∧ q e = false ∧ t e = true)) :
    product r (es.filter p) * product r (es.filter q) * product r (es.filter t) = product r es := by
  induction es with
  | nil => simp
  | cons e es ih =>
    rw [product_cons, ← ih]
    rcases one e with ⟨hp, hq, ht⟩ | ⟨hp, hq, ht⟩ | ⟨hp, hq, ht⟩
    all_goals
      simp only [filter_cons, hp, hq, ht, if_true, Bool.false_eq_true, if_false, product_cons]
      ring

theorem shared_sortSigns (sound : ops.Sound r) (defined : AllDefined r es) :
    Shared r (sortSigns ops es) (product r es) := by
  have shared := shared_shareSigns sound (defined.filter fun a => a.facts.isNonnegative)
    (defined.filter fun a => a.facts.real == some true && !a.facts.isNonnegative)
    (defined.filter fun a => a.facts.real != some true)
  rw [product_three] at shared
  · exact shared
  · intro e
    unfold Facts.isNonnegative bne
    cases e.facts.real == some true <;> cases e.facts.negative == some false <;> simp

theorem nonzero_of_product (nonzero : product r es ≠ 0) (mem : e ∈ es) : value r e ≠ 0 :=
  fun zero => nonzero (prod_eq_zero (mem_map.mpr ⟨e, mem, zero⟩))

theorem means_raiseEach (sound : ops.Sound r) (p : Coeff → Bool) (defined : AllDefined r es)
    (nonzero : n < 0 → product r es ≠ 0) :
    Means r (ops.times (ops.mul ((es.filter p).map fun f => ops.pow f (ofInt n)))
      (ops.mul ((es.filter (!p ·)).map fun f => pow f (ofInt n)))) (product r es ^ n) := by
  have nonzero' : ∀ f ∈ es, n < 0 → value r f ≠ 0 :=
    fun f mem negative => nonzero_of_product (nonzero negative) mem
  have resolved : ∀ f ∈ es.filter p, Means r (ops.pow f (ofInt n)) (value r f ^ n) := fun f mem =>
    have inside := mem_of_mem_filter mem
    sound.pow (defined f inside) (nonzero' f inside)
  have kept : ∀ f ∈ es.filter (!p ·), Means r (pow f (ofInt n)) (value r f ^ n) := fun f mem =>
    have inside := mem_of_mem_filter mem
    means_pow (defined f inside).means (nonzero' f inside)
  have means := sound.times (sound.mul (allDefined_map resolved)) (sound.mul (allDefined_map kept))
  rwa [product_map resolved, product_map kept, prod_map_zpow, prod_map_zpow, ← mul_zpow, product_filter] at means

theorem means_splitBase (sound : ops.Sound r) (defined : AllDefined r es)
    (nonzero : n < 0 → product r es ≠ 0) : Means r (splitBase ops es (ofInt n)) (product r es ^ n) := by
  have shared := shared_sortSigns sound defined
  unfold splitBase
  generalize sortSigns ops es = parts at shared ⊢
  obtain ⟨nonnegative, other⟩ := parts
  obtain ⟨first, second, product_eq⟩ := shared
  rw [← product_eq, mul_zpow]
  rw [← product_eq] at nonzero
  have front (p : Coeff → Bool) :=
    means_raiseEach sound p first fun negative => left_ne_zero_of_mul (nonzero negative)
  have together := sound.mul second
  have back := means_pow together fun negative => right_ne_zero_of_mul (nonzero negative)
  simp only
  split
  · rename_i empty
    rw [isEmpty_iff.mp empty, product_nil, one_zpow, mul_one]
    exact front _
  · exact sound.times (front _) back

theorem means_expandBase (defined : Defined r e) : Means r (expandBase e) (value r e) := by
  have whole := defined.means
  cases defined with
  | @pow b n base nonzero =>
    cases base with
    | @prod fs c factors =>
      obtain ⟨parts, same⟩ := (Defined.prod c factors).multiplicands
      have means := means_splitBase (sound_operations depthLimit) parts (n := n) (by rw [product, same]; exact nonzero)
      rw [product, same] at means
      rw [value_pow]
      exact means
    | _ => exact whole
  | _ => exact whole

theorem means_expandExponent (defined : Defined r e) : Means r (expandExponent e) (value r e) := by
  have whole := defined.means
  cases defined with
  | pow base nonzero => cases base <;> exact whole
  | _ => exact whole

/-! ### Everywhere -/

/-- A rule that keeps values and leaves numbers and symbols as they are. -/
structure Keeps (r : Reading) (rule : Coeff → Coeff) : Prop where
  value {e : Coeff} : Defined r e → Means r (rule e) (value r e)
  num (c : Scalar) : rule (num c) = num c
  sym (s : String) : rule (sym s) = sym s

theorem everywhereList_eq_map (rule : Coeff → Coeff) (es : List Coeff) :
    everywhereList rule es = es.map (everywhere rule) := by
  induction es with
  | nil => rfl
  | cons e es ih => rw [everywhereList, ih, map_cons]

theorem Keeps.everywhere {rule : Coeff → Coeff} (keeps : Keeps r rule) (defined : Defined r e) :
    Means r (everywhere rule e) (Coeff.value r e) := by
  induction defined with
  | num q => exact keeps.value (.num q)
  | sym known => exact keeps.value (.sym known)
  | only s =>
    rw [Coeff.everywhere, everywhereList, everywhereList, Coeff.everywhere, keeps.sym]
    exact keeps.value (.only s)
  | component s i =>
    rw [Coeff.everywhere, everywhereList, everywhereList, everywhereList, Coeff.everywhere, keeps.sym, ofInt,
      Coeff.everywhere, keeps.num]
    exact keeps.value (.component s i)
  | @pow b n base nonzero ih =>
    have exponent : Coeff.everywhere rule (ofInt n) = ofInt n := keeps.num _
    rw [Coeff.everywhere]
    simp only [exponent]
    split
    · exact keeps.value (.pow base nonzero)
    · have power := means_raise ih.defined (n := n) (ih.value_eq.symm ▸ nonzero)
      rw [ih.value_eq, ← value_pow] at power
      exact power.through keeps.value
  | @prod fs c factors ih =>
    rw [Coeff.everywhere]
    split
    · exact keeps.value (.prod c factors)
    · have means := means_mulAll (allDefined_cons.mpr ⟨Defined.num (r := r) c, allDefined_map ih⟩)
      rw [product_cons, product_map ih, value_num, rational_exact] at means
      rw [value_prod, rational_exact, everywhereList_eq_map]
      exact means.through keeps.value
  | @sum ts c terms ih =>
    rw [Coeff.everywhere]
    split
    · exact keeps.value (.sum c terms)
    · have means := means_addAll (allDefined_cons.mpr ⟨Defined.num (r := r) c, allDefined_map ih⟩)
      rw [total_cons, total_map ih, value_num, rational_exact] at means
      rw [value_sum, rational_exact, everywhereList_eq_map]
      exact means.through keeps.value

theorem keeps_expandProduct : Keeps r expandProduct := ⟨means_expandProduct, fun _ => rfl, fun _ => rfl⟩

theorem keeps_expandMultinomial : Keeps r expandMultinomial := ⟨means_expandMultinomial, fun _ => rfl, fun _ => rfl⟩

theorem keeps_expandBase : Keeps r expandBase := ⟨means_expandBase, fun _ => rfl, fun _ => rfl⟩

theorem keeps_expandExponent : Keeps r expandExponent := ⟨means_expandExponent, fun _ => rfl, fun _ => rfl⟩

theorem means_round (defined : Defined r e) :
    Means r (everywhere expandProduct (everywhere expandMultinomial e)) (value r e) :=
  (keeps_expandMultinomial.everywhere defined).through keeps_expandProduct.everywhere

theorem means_settle (fuel : Nat) (defined : Defined r e) : Means r (settle fuel e) (value r e) := by
  induction fuel generalizing e with
  | zero => exact defined.means
  | succ fuel ih =>
    rw [settle]
    split
    · exact defined.means
    · exact (means_round defined).through ih

theorem Means.expand (means : Means r e x) : Means r (expand e) x := by
  have first := means.through means_round
  have second := first.through keeps_expandBase.everywhere
  have third := second.through keeps_expandExponent.everywhere
  have last := third.through (means_settle roundLimit)
  unfold Coeff.expand
  split
  · exact means
  · exact means
  · exact means
  · exact last

end Bladewright.Coeff
