import Bladewright.Proofs.Coeff.Gather

/-!
Products and powers keep the value, to every depth to which they resolve each other.
-/
namespace Bladewright.Coeff

open Coeff

open List hiding beq_eq_decide

open Scalar

variable {r : Reading} {ops : Operations}

/-! ### Taking up factors -/

theorem baseExponent_num (q : ℚ) (n : ℤ) :
    ∃ (p : ℚ) (m : ℤ), (pow (num (.exact q)) (ofInt n)).baseExponent = (num (.exact p), ofInt m) := by
  show ∃ (p : ℚ) (m : ℤ), (if isUnitFraction (num (.exact q)) then (num (.exact q⁻¹), oppositeExponent (ofInt n))
    else (num (.exact q), ofInt n)) = (num (.exact p), ofInt m)
  split
  · exact ⟨q⁻¹, -n, by rw [oppositeExponent_ofInt]⟩
  · exact ⟨q, n, rfl⟩

variable {e : Coeff} {s : Sorted} {q : ℚ} {es factors : List Coeff} {powers : List (Coeff × Coeff)}

theorem takeUp_cons (defined : Defined r e) (fuel : Nat) (queue taken : List Coeff) :
    takeUp ops (fuel + 1) (e :: queue) taken =
      if e.isProd then takeUp ops fuel (queue ++ e.multiplicands) taken
      else takeUp ops fuel queue (e :: taken) := by
  cases defined with
  | @pow b n base nonzero =>
    cases base with
    | num q =>
      obtain ⟨p, m, parts⟩ := baseExponent_num q n
      simp only [ofInt, Scalar.ofInt] at parts ⊢
      simp [takeUp, parts, isProd]
    | _ => rfl
  | _ => rfl

theorem AllDefined.takeUp (ops : Operations) (fuel : Nat) {queue taken : List Coeff}
    (waiting : AllDefined r queue) (done : AllDefined r taken) :
    AllDefined r (takeUp ops fuel queue taken) ∧
      product r (takeUp ops fuel queue taken) = product r taken * product r queue := by
  induction fuel generalizing queue taken with
  | zero =>
    refine ⟨(done.perm taken.reverse_perm).append waiting, ?_⟩
    rw [Coeff.takeUp, product_append, product_perm taken.reverse_perm]
  | succ fuel ih =>
    cases queue with
    | nil =>
      refine ⟨done.perm taken.reverse_perm, ?_⟩
      rw [Coeff.takeUp, product_perm taken.reverse_perm, product_nil, mul_one]
    | cons e queue =>
      obtain ⟨first, rest⟩ := allDefined_cons.mp waiting
      rw [takeUp_cons first]
      split
      · obtain ⟨parts, whole⟩ := first.multiplicands
        obtain ⟨defined, same⟩ := ih (rest.append parts) done
        refine ⟨defined, ?_⟩
        rw [same, product_append, product_cons, product, product, product, whole]
        ring
      · obtain ⟨defined, same⟩ := ih rest (allDefined_cons.mpr ⟨first, done⟩)
        refine ⟨defined, ?_⟩
        rw [same, product_cons, product_cons]
        ring

/-! ### Sorting factors -/

/-- A sorted product without roots and turns, whose powers have values. -/
structure Sorted.Tidy (r : Reading) (s : Sorted) : Prop where
  number : s.number.IsExact
  turn : s.turn = 0
  roots : s.roots = []
  numeric : s.numeric = []
  powers : PowersDefined r s.powers

def Sorted.meaning (r : Reading) (s : Sorted) : ℚ := s.number.rational * powerProduct r s.powers

theorem Sorted.Tidy.addPower (tidy : s.Tidy r) {b : Coeff} {x : ℚ} (means : Means r (pow b e) x) :
    Sorted.Tidy r { s with powers := (b, e) :: s.powers } ∧
      Sorted.meaning r { s with powers := (b, e) :: s.powers } = s.meaning r * x := by
  refine ⟨{ tidy with powers := powersDefined_cons.mpr ⟨means.defined, tidy.powers⟩ }, ?_⟩
  simp only [Sorted.meaning, powerProduct_cons, means.value_eq]
  ring

theorem Sorted.Tidy.addNumber (tidy : s.Tidy r) (q : ℚ) : Sorted.Tidy r { s with number := s.number * .exact q } ∧
      Sorted.meaning r { s with number := s.number * .exact q } = s.meaning r * q := by
  obtain ⟨p, number⟩ := tidy.number
  refine ⟨{ tidy with number := ⟨p * q, by rw [number]; rfl⟩ }, ?_⟩
  simp only [Sorted.meaning, number, exact_mul, rational_exact]
  ring

theorem Sorted.Tidy.takeNumberPower (sound : ops.Sound r) (tidy : s.Tidy r) {n : ℤ}
    (defined : Defined r (pow (num (.exact q)) (ofInt n))) :
    (s.take ops (pow (num (.exact q)) (ofInt n))).Tidy r ∧
      (s.take ops (pow (num (.exact q)) (ofInt n))).meaning r =
        s.meaning r * value r (pow (num (.exact q)) (ofInt n)) := by
  have means := defined.baseExponent
  obtain ⟨p, m, parts⟩ := baseExponent_num q n
  rw [parts] at means
  obtain ⟨m', same, base, nonzero⟩ := means.defined.of_pow
  have power := sound.pow base nonzero
  rw [← same, ← value_pow, ← same, means.value_eq] at power
  have whole : ofInt m = num (.exact (m : ℚ)) := rfl
  unfold Sorted.take
  simp only [parts, whole, Rat.den_intCast, if_true] at power ⊢
  split
  · rename_i d found
    rw [found] at power
    obtain ⟨x, rfl⟩ := power.defined.of_num
    rw [← power.value_eq]
    exact tidy.addNumber x
  · exact tidy.addPower means

theorem Sorted.Tidy.take (sound : ops.Sound r) (tidy : s.Tidy r) (defined : Defined r e) :
    (s.take ops e).Tidy r ∧ (s.take ops e).meaning r = s.meaning r * value r e := by
  have parts := defined.baseExponent
  cases defined with
  | num q => exact tidy.addNumber q
  | @pow b n base nonzero =>
    cases base with
    | num q => exact tidy.takeNumberPower sound (.pow (.num q) nonzero)
    | _ => exact tidy.addPower parts
  | _ => exact tidy.addPower parts

theorem Sorted.Tidy.foldl (sound : ops.Sound r) (tidy : s.Tidy r) (defined : AllDefined r es) :
    (es.foldl (Sorted.take ops) s).Tidy r ∧ (es.foldl (Sorted.take ops) s).meaning r = s.meaning r * product r es := by
  induction es generalizing s with
  | nil => exact ⟨tidy, by simp⟩
  | cons e es ih =>
    obtain ⟨first, rest⟩ := allDefined_cons.mp defined
    obtain ⟨tidy', meaning⟩ := tidy.take sound first
    obtain ⟨all, meaning'⟩ := ih tidy' rest
    exact ⟨all, by rw [foldl_cons, meaning', meaning, product_cons, mul_assoc]⟩

theorem tidy_sortFactors (sound : ops.Sound r) (defined : AllDefined r es) :
    (sortFactors ops es).Tidy r ∧ (sortFactors ops es).meaning r = product r es := by
  have start : Sorted.Tidy r {} := ⟨by rw [Scalar.one_eq]; exact ⟨1, rfl⟩, rfl, rfl, rfl, powersDefined_nil⟩
  have one : Sorted.meaning r {} = 1 := by simp [Sorted.meaning, Scalar.one_eq]
  obtain ⟨tidy, meaning⟩ := start.foldl sound defined
  rw [one, one_mul] at meaning
  constructor
  · refine ⟨tidy.number, tidy.turn, tidy.roots, ?_, ?_⟩
    · simp [sortFactors, tidy.numeric]
    · intro p mem
      exact tidy.powers p (mem_reverse.mp mem)
  · rw [← meaning]
    simp only [Sorted.meaning, sortFactors, powerProduct]
    rw [(reverse_perm _).map _ |>.prod_eq]

/-! ### Evaluating powers -/

@[simp] theorem facts_ofInt (n : ℤ) : (ofInt n).facts =
    ⟨some true, some (decide (0 < n)), some (decide (n < 0)), some (decide (n = 0)), some true⟩ := by
  simp [ofInt, Scalar.ofInt, facts, Facts.ofScalar, beq_eq_decide]

/-- Evaluated powers with the bases and exponents that came out have the product that the powers had. -/
structure Evaluated (r : Reading) (powers : List (Coeff × Coeff)) (result : List Coeff × List (Coeff × Coeff) × Bool) :
    Prop where
  values : AllDefined r result.1
  product_values : product r result.1 = powerProduct r powers
  parts : PowersDefined r result.2.1
  product_parts : powerProduct r result.2.1 = powerProduct r powers

theorem Evaluated.cons {result : List Coeff × List (Coeff × Coeff) × Bool}
    (rest : Evaluated r powers result) {p q : Coeff × Coeff} {changed : Bool}
    (value : Means r e (value r (pow p.1 p.2))) (part : Means r (pow q.1 q.2) (Coeff.value r (pow p.1 p.2))) :
    Evaluated r (p :: powers) (e :: result.1, q :: result.2.1, changed) where
  values := allDefined_cons.mpr ⟨value.defined, rest.values⟩
  product_values := by simp [value.value_eq, rest.product_values]
  parts := powersDefined_cons.mpr ⟨part.defined, rest.parts⟩
  product_parts := by simp [part.value_eq, rest.product_parts]

theorem evaluated_evaluatePowers (sound : ops.Sound r)
    (defined : PowersDefined r powers) : Evaluated r powers (evaluatePowers ops powers) := by
  induction powers with
  | nil => exact ⟨allDefined_nil, rfl, powersDefined_nil, rfl⟩
  | cons p powers ih =>
    obtain ⟨b, e⟩ := p
    obtain ⟨first, rest⟩ := powersDefined_cons.mp defined
    have evaluated := ih rest
    obtain ⟨n, rfl, base, nonzero⟩ := first.of_pow
    have power : Means r (ops.pow b (ofInt n)) (value r (pow b (ofInt n))) := by
      rw [value_pow]
      exact sound.pow base nonzero
    unfold evaluatePowers at evaluated ⊢
    rw [foldr_cons]
    generalize powers.foldr _ _ = result at evaluated ⊢
    obtain ⟨values, parts, changed⟩ := result
    dsimp only
    split
    · rename_i one
      obtain rfl : n = 1 := by
        simpa [ofInt, Scalar.ofInt] using one
      refine evaluated.cons ⟨base, ?_⟩ first.means
      simp
    · split
      · rename_i zero
        obtain rfl : n = 0 := by simpa using zero
        exact ⟨evaluated.values, by simp [evaluated.product_values], evaluated.parts,
          by simp [evaluated.product_parts]⟩
      · split
        · exact evaluated.cons power (power.value_eq ▸ power.defined.baseExponent)
        · exact evaluated.cons power first.means

theorem cancelsInfinity_eq_false (defined : PowersDefined r powers) : cancelsInfinity powers = false := by
  unfold cancelsInfinity
  rw [any_eq_false]
  rintro ⟨b, e⟩ mem
  obtain ⟨n, rfl, base, -⟩ := (defined _ mem).of_pow
  cases base with
  | prod c | sum c =>
    show ¬ ((Scalar.ofInt n).isZero && !(Scalar.exact c).isFinite && _) = true
    simp [isFinite]
  | _ => exact Bool.false_ne_true

theorem evaluateAll_powers (sound : ops.Sound r) (defined : PowersDefined r powers) :
    ∃ values, evaluateAll ops powers = some values ∧ AllDefined r values ∧
      product r values = powerProduct r powers := by
  have evaluated := evaluated_evaluatePowers sound defined
  unfold evaluateAll
  rw [cancelsInfinity_eq_false defined]
  simp only [Bool.false_eq_true, if_false]
  split
  · obtain ⟨again, product⟩ := evaluated.parts.gather ops
    have evaluated' := evaluated_evaluatePowers sound again
    rw [cancelsInfinity_eq_false again]
    refine ⟨_, rfl, evaluated'.values, ?_⟩
    rw [evaluated'.product_values, product, evaluated.product_parts]
  · exact ⟨_, rfl, evaluated.values, evaluated.product_values⟩

/-! ### Putting a product together -/

theorem foldl_mul_exact {cs : List Scalar} (exactly : ∀ c ∈ cs, c.IsExact) (q : ℚ) :
    cs.foldl (· * ·) (.exact q) = .exact (q * (cs.map rational).prod) := by
  induction cs generalizing q with
  | nil => simp
  | cons c cs ih =>
    rw [foldl_cons, (exactly c (by simp)).eq, exact_mul, ih fun c mem => exactly c (by simp [mem])]
    simp [mul_assoc]

theorem prod_toScalar? (es : List Coeff) :
    ((es.filterMap toScalar?).map rational).prod = product r (es.filter (·.toScalar?.isSome)) := by
  induction es with
  | nil => rfl
  | cons e es ih =>
    cases e with
    | num c => simp [toScalar?, ih]
    | _ => exact ih

theorem means_ofFactors (c : ℚ) (defined : AllDefined r factors) :
    Means r (ofFactors (.exact c) factors) (c * product r factors) := by
  have whole : Means r (prod (.exact c) factors) (c * product r factors) := means_prod c defined
  unfold ofFactors
  split
  · simpa using means_num c
  · rename_i d ts
    have sum := defined (sum d ts) (by simp)
    rw [product_cons, product_nil, mul_one]
    split
    · rename_i one
      rw [isOne_exact, decide_eq_true_eq] at one
      rw [one, one_mul]
      exact sum.means
    · cases sum with
      | sum q terms =>
        have finite : (Scalar.exact c).isFinite = true := rfl
        rw [if_pos finite, value_sum]
        exact means_distribute c q terms
  · rename_i f _
    split
    · rename_i one
      rw [isOne_exact, decide_eq_true_eq] at one
      simpa [one] using (defined f (by simp)).means
    · exact whole
  · exact whole

theorem Defined.facts_finite (defined : Defined r e) : (e.facts.finite == some false) = false := by
  cases defined with
  | pow | prod | sum =>
    simp only [facts]
    split
    · split <;> rfl
    · rfl
  | _ => rfl

theorem settleNumber_exact (nonzero : q ≠ 0) {fs : List Coeff} (symbolic : ∀ f ∈ fs, f.toScalar? = none) :
    settleNumber (.exact q) fs = ofFactors (.exact q) (arrange fs) := by
  have numbers : fs.filterMap toScalar? = [] := by simpa [filterMap_eq_nil_iff] using symbolic
  have others : fs.filter (·.toScalar?.isNone) = fs := by
    rw [filter_eq_self]
    exact fun f mem => by rw [symbolic f mem]; rfl
  simp [settleNumber, nonzero, numbers, others]

theorem means_settleNumber (c : ℚ) (defined : AllDefined r factors) :
    Means r (settleNumber (.exact c) factors) (c * product r factors) := by
  unfold settleNumber
  simp only [isZero_exact, decide_eq_true_eq]
  split
  · rename_i zero
    have finite : factors.any (·.facts.finite == some false) = false := by
      rw [any_eq_false]
      intro f mem
      simp [(defined f mem).facts_finite]
    rw [finite, zero, zero_mul]
    exact means_num 0
  · rw [foldl_mul_exact defined.toScalar?, prod_toScalar?, if_neg (by rintro ⟨⟩)]
    have means := means_ofFactors (c * product r (factors.filter (·.toScalar?.isSome)))
      ((defined.filter (·.toScalar?.isNone)).perm (arrange_perm _))
    rw [product_perm (arrange_perm _), mul_assoc] at means
    have parts := product_filter (r := r) (·.toScalar?.isSome) factors
    simp only [Option.not_isSome] at parts
    rwa [parts] at means

theorem turnParts_zero : turnParts 0 [] = (false, [], []) := by
  have floor : (0 : ℚ).floor = 0 := rfl
  simp [turnParts, floor]

theorem rootParts_nil (number : Scalar) : rootParts ops [] number = (number, []) := rfl

theorem joinNumeric_nil : joinNumeric ops (gather ops []) = [] := rfl

theorem means_multiply (sound : ops.Sound r) (defined : AllDefined r es) :
    Means r (multiply ops es) (product r es) := by
  obtain ⟨taken, same⟩ := AllDefined.takeUp ops
    (4 * es.foldl (fun n e => n + e.multiplicands.length + 1) 16) defined allDefined_nil
  rw [product_nil, one_mul] at same
  obtain ⟨tidy, meaning⟩ := tidy_sortFactors sound taken
  obtain ⟨gathered, gatheredProduct⟩ := tidy.powers.gather ops
  obtain ⟨values, found, defined', valuesProduct⟩ := evaluateAll_powers sound gathered
  obtain ⟨q, number⟩ := tidy.number
  have means := means_settleNumber q defined'
  rw [valuesProduct, gatheredProduct] at means
  rw [← same, ← meaning, Sorted.meaning, number, rational_exact]
  unfold multiply
  simp only [found, tidy.numeric, tidy.roots, tidy.turn, number, joinNumeric_nil, rootParts_nil,
    turnParts_zero]
  simpa using means

theorem product_filter_of_one {p : Coeff → Bool}
    (one : ∀ e ∈ es, p e = false → value r e = 1) : product r (es.filter p) = product r es := by
  induction es with
  | nil => rfl
  | cons e es ih =>
    have rest := ih fun e mem => one e (by simp [mem])
    cases dropped : p e with
    | true => rw [filter_cons_of_pos dropped, product_cons, rest, product_cons]
    | false =>
      rw [filter_cons_of_neg (by simp [dropped]), rest, product_cons, one e (by simp) dropped, one_mul]

theorem value_of_isOne (defined : Defined r e) (one : e.isOne = true) : value r e = 1 := by
  cases defined with
  | num q => simpa [isOne] using one
  | _ => cases one

theorem means_vanish (sound : ops.Sound r) (defined : Defined r e) :
    Means r (addAll (e.summands.map fun t => ops.times (ofInt 0) t)) 0 := by
  have terms : ∀ t ∈ e.summands, Means r (ops.times (ofInt 0) t) 0 := by
    intro t mem
    simpa using sound.times (means_ofInt 0) (defined.summands.1 t mem).means
  have means := means_addAll (allDefined_map terms)
  rw [total_map terms] at means
  simpa using means

theorem means_productStep (sound : ops.Sound r) (defined : AllDefined r es) :
    Means r (productStep ops es) (product r es) := by
  have ones : ∀ e ∈ es, (!e.isOne) = false → value r e = 1 :=
    fun e mem one => value_of_isOne (defined e mem) (by simpa using one)
  have kept := defined.filter (!·.isOne)
  rw [← product_filter_of_one ones]
  unfold productStep
  generalize es.filter (!·.isOne) = fs at kept ⊢
  split
  · exact means_one
  · rename_i e
    simpa using (kept e (by simp)).means
  · rename_i c ts
    simpa using means_vanish sound (kept (sum c ts) (by simp))
  · rename_i c ts
    simpa using means_vanish sound (kept (sum c ts) (by simp))
  · exact means_multiply sound kept

end Bladewright.Coeff
