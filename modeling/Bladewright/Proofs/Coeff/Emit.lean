import Bladewright.Proofs.Coeff.Expand
import Bladewright.Proofs.Host.Exact
import Bladewright.Proofs.Outcome

/-!
The code of a coefficient computes its value: the order in which terms and factors are written does not matter, a
subtracted term has the opposite sign, and what stands below a division is not zero.
-/
namespace Bladewright.Coeff

open List Scalar Host Host.Valuation Outcome

variable {inputs : Inputs}

/-! ### The written order -/

variable {α : Type} {c : Expr} {code : Coeff → Code} {e : Coeff} {start : Code} {terms factors : List Coeff}
  {depth : Nat}

theorem sortPlaced_general_perm (terms : List (Placement × α)) : (sortPlaced.general terms).Perm terms := by
  unfold sortPlaced.general
  simp only
  refine ((mergeSort_perm _ _).map _).trans ?_
  rw [map_map]
  exact (map_id terms).symm ▸ List.Perm.refl _

theorem sortPlaced_perm (terms : List (Placement × α)) : (sortPlaced terms).Perm terms := by
  unfold sortPlaced
  simp only
  split
  · rename_i two
    split
    · rw [← two]
      exact filter_append_perm (·.1.constant) terms
    · exact sortPlaced_general_perm terms
  · exact sortPlaced_general_perm terms

theorem orderedTerms_perm (e : Coeff) : e.orderedTerms.Perm e.summands := by
  unfold orderedTerms
  refine ((sortPlaced_perm _).map _).trans ?_
  rw [map_map]
  exact (map_id e.summands).symm ▸ List.Perm.refl _

theorem orderedFactors_perm (e : Coeff) : e.orderedFactors.Perm e.multiplicands := by
  unfold orderedFactors
  refine ((mergeSort_perm _ _).map _).trans ?_
  rw [map_map]
  exact (map_id e.multiplicands).symm ▸ List.Perm.refl _

/-! ### Sums and products of codes -/

/-- Whatever code there is for an expression with a value computes that value. -/
def Emits (inputs : Inputs) (code : Coeff → Code) : Prop :=
  ∀ e c, Defined inputs.reading e → code e = .ok c → inputs.valuation.eval c = some (value inputs.reading e)

theorem Emits.eval (emits : Emits inputs code) {x : ℚ} (means : Means inputs.reading e x) (emitted : code e = .ok c) :
    inputs.valuation.eval c = some x :=
  means.value_eq ▸ emits e c means.defined emitted

theorem eval_emitNumber (q : ℚ) (emitted : emitNumber (.exact q) = .ok c) : inputs.valuation.eval c = some q := by
  have size : (((q.num.natAbs : ℤ) : ℚ)) = if q < 0 then -(q.num : ℚ) else q.num := by
    split
    · rename_i negative
      have := Rat.num_neg.mpr negative
      rw [← Int.cast_neg]
      congr 1
      omega
    · rename_i nonneg
      have := Rat.num_nonneg.mpr (not_lt.mp nonneg)
      congr 1
      omega
  simp only [emitNumber] at emitted
  split at emitted
  · rename_i whole
    cases emitted
    have integer : (q.num : ℚ) = q := (Rat.den_eq_one_iff q).mp whole
    by_cases negative : q < 0
    · rw [if_pos negative, integer] at size
      simp only [signedConstant, negative, decide_true, if_true]
      have value := eval_minus (eval_int inputs.valuation q.num.natAbs)
      rwa [size, neg_neg] at value
    · rw [if_neg negative, integer] at size
      simp only [signedConstant, negative, decide_false]
      have value := eval_int inputs.valuation q.num.natAbs
      rwa [size] at value
  · have nonzero : ((q.den : ℤ) : ℚ) ≠ 0 := by simp
    have ratio := eval_div (eval_int inputs.valuation q.num.natAbs) (eval_int _ q.den) nonzero
    cases emitted
    by_cases negative : q < 0
    · rw [if_pos negative] at size ⊢
      have value := eval_minus ratio
      rw [size, neg_div, neg_neg, Int.cast_natCast, Rat.num_div_den] at value
      exact value
    · rw [if_neg negative] at size ⊢
      rw [size, Int.cast_natCast, Rat.num_div_den] at ratio
      exact ratio

theorem eval_foldl_terms (emits : Emits inputs code) (defined : AllDefined inputs.reading terms)
    (emitted : terms.foldl (fun left term => do
      let left ← left
      if term.splitNumber.1.isNegative then return .binary .sub left (← code (neg term))
      return .binary .add left (← code term)) start = .ok c) :
    ∃ first, start = .ok first ∧ ∀ x, inputs.valuation.eval first = some x →
      inputs.valuation.eval c = some (x + total inputs.reading terms) := by
  induction terms generalizing start with
  | nil => exact ⟨c, emitted, fun x value => by rw [value, total_nil, add_zero]⟩
  | cons t terms ih =>
    obtain ⟨head, rest⟩ := allDefined_cons.mp defined
    obtain ⟨next, joined, later⟩ := ih rest emitted
    obtain ⟨first, started, joined⟩ := of_bind joined
    refine ⟨first, started, fun x value => ?_⟩
    rw [total_cons, ← add_assoc]
    apply later
    split at joined
    · obtain ⟨right, found, ⟨⟩⟩ := of_bind joined
      rw [← sub_neg_eq_add]
      exact eval_sub value (emits.eval head.means.neg found)
    · obtain ⟨right, found, ⟨⟩⟩ := of_bind joined
      exact eval_add value (emits _ _ head found)

theorem eval_joinSum (emits : Emits inputs code)
    (defined : AllDefined inputs.reading terms) (emitted : joinSum code terms = .ok c) :
    inputs.valuation.eval c = some (total inputs.reading terms) := by
  cases terms with
  | nil =>
    cases emitted
    rfl
  | cons t terms =>
    obtain ⟨head, rest⟩ := allDefined_cons.mp defined
    obtain ⟨first, started, value⟩ := eval_foldl_terms emits rest emitted
    rw [total_cons]
    exact value _ (emits t first head started)

theorem eval_foldl_factors (emits : Emits inputs code) (defined : AllDefined inputs.reading factors)
    (emitted : (factors.map code).foldl (fun left right => do
      let left ← left
      return .binary .mul left (← right)) start = .ok c) :
    ∃ first, start = .ok first ∧ ∀ x, inputs.valuation.eval first = some x →
      inputs.valuation.eval c = some (x * product inputs.reading factors) := by
  induction factors generalizing start with
  | nil => exact ⟨c, emitted, fun x value => by rw [value, product_nil, mul_one]⟩
  | cons f factors ih =>
    obtain ⟨head, rest⟩ := allDefined_cons.mp defined
    obtain ⟨next, joined, later⟩ := ih rest emitted
    obtain ⟨first, started, joined⟩ := of_bind joined
    obtain ⟨right, found, ⟨⟩⟩ := of_bind joined
    refine ⟨first, started, fun x value => ?_⟩
    rw [product_cons, ← mul_assoc]
    exact later _ (eval_mul value (emits f right head found))

theorem eval_joinProduct (emits : Emits inputs code)
    (defined : AllDefined inputs.reading factors) (emitted : joinProduct (factors.map code) = .ok c) :
    inputs.valuation.eval c = some (product inputs.reading factors) := by
  cases factors with
  | nil =>
    cases emitted
    exact (eval_int _ 1).trans (by simp)
  | cons f factors =>
    obtain ⟨head, rest⟩ := allDefined_cons.mp defined
    obtain ⟨first, started, value⟩ := eval_foldl_factors emits rest emitted
    rw [product_cons]
    exact value _ (emits f first head started)

theorem eval_emitProduct (emits : Emits inputs code) {q : ℚ} {fs : List Coeff}
    (defined : Defined inputs.reading (prod (.exact q) fs))
    (emitted : emitProduct code (.exact q) fs = .ok c) :
    inputs.valuation.eval c = some (value inputs.reading (prod (.exact q) fs)) := by
  unfold emitProduct at emitted
  simp only at emitted
  split at emitted
  · obtain ⟨size, found, ⟨⟩⟩ := of_bind emitted
    have value := eval_minus (emits.eval defined.means.neg found)
    rwa [neg_neg] at value
  · split at emitted
    · obtain ⟨parts, whole⟩ := defined.multiplicands
      have perm := orderedFactors_perm (prod (.exact q) fs)
      have value := eval_joinProduct emits (AllDefined.perm parts perm) emitted
      rwa [product_perm perm, product, whole] at value
    · obtain ⟨x, y, numerator, denominator, nonzero, quotient⟩ := defined.fraction
      obtain ⟨above, found, emitted⟩ := of_bind emitted
      obtain ⟨below, found', ⟨⟩⟩ := of_bind emitted
      rw [quotient]
      exact eval_div (emits.eval numerator found) (emits.eval denominator found') nonzero

theorem eval_emitPower (emits : Emits inputs code)
    (defined : Defined inputs.reading e) (emitted : emitPower code e = .ok c) :
    inputs.valuation.eval c = some (value inputs.reading e) := by
  have parts := defined.baseExponent
  obtain ⟨n, exponent, base, nonzero⟩ := parts.defined.of_pow
  have value_eq := parts.value_eq
  rw [exponent, value_pow] at value_eq
  unfold emitPower at emitted
  simp only [exponent, toInt?_ofInt] at emitted
  split at emitted
  · rename_i negative
    obtain ⟨below, found, ⟨⟩⟩ := of_bind emitted
    have nonzero' : value inputs.reading e ≠ 0 := value_eq ▸ zpow_ne_zero n (nonzero negative)
    have inverse := emits.eval (defined.means.inv nonzero') found
    have value := eval_div (eval_int _ 1) inverse (inv_ne_zero nonzero')
    rwa [Int.cast_one, one_div, inv_inv] at value
  · rename_i nonneg
    obtain ⟨left, found, emitted⟩ := of_bind emitted
    obtain ⟨right, found', ⟨⟩⟩ := of_bind emitted
    rw [← value_eq]
    exact eval_pow (emits.eval base.means found) (emits.eval (means_ofInt n) found') (not_lt.mp nonneg)

/-! ### The code of an expression -/

theorem emitDeep_sym {s : String} (emitted : emitDeep depth (sym s) = .ok c) : Expr.read s = .ok c := by
  cases depth with
  | zero => cases emitted
  | succ depth =>
    rw [emitDeep] at emitted
    cases read : Expr.read s with
    | error fault =>
      rw [read] at emitted
      cases emitted
    | ok e =>
      rw [read] at emitted
      cases emitted
      rfl

theorem emitDeep_ofInt (depth i : Nat) : emitDeep (depth + 1) (ofInt i) = .ok (.int i) := by
  have nonneg : ¬ (((i : ℤ) : ℚ) < 0) := by simp
  show emitNumber (.exact (i : ℤ)) = .ok (.int i)
  simp only [emitNumber, Rat.den_intCast, if_true, signedConstant, nonneg, decide_false, Bool.false_eq_true, if_false,
    Rat.num_intCast, Int.natAbs_natCast, Expr.int]

theorem emitDeep_natural {i : Nat} (emitted : emitDeep depth (ofInt i) = .ok c) : c = .int i := by
  cases depth with
  | zero => cases emitted
  | succ depth =>
    rw [emitDeep_ofInt] at emitted
    exact (Except.ok.inj emitted).symm

theorem emits_emitDeep (inputs : Inputs) (depth : Nat) : Emits inputs (emitDeep depth) := by
  induction depth with
  | zero =>
    intro e c _ emitted
    cases emitted
  | succ depth emits =>
    intro e c defined emitted
    cases defined with
    | num q => exact eval_emitNumber q emitted
    | @sym s known =>
      obtain ⟨x, number⟩ := Option.isSome_iff_exists.mp known
      rw [inputs.scalar_eq number (emitDeep_sym emitted), value, number]
      rfl
    | only s =>
      obtain ⟨args, read, ⟨⟩⟩ := of_bind (show [sym s].mapM (emitDeep depth) >>= (fun args =>
        Except.ok (Expr.apply "getcomponent" args)) = .ok c from emitted)
      obtain _ | ⟨found, ⟨⟩⟩ := of_mapM read
      exact congrArg some (inputs.component_eq none (emitDeep_sym found))
    | component s i =>
      obtain ⟨args, read, ⟨⟩⟩ := of_bind (show [sym s, ofInt i].mapM (emitDeep depth) >>= (fun args =>
        Except.ok (Expr.apply "getcomponent" args)) = .ok c from emitted)
      obtain _ | ⟨found, _ | ⟨number, ⟨⟩⟩⟩ := of_mapM read
      rw [emitDeep_natural number]
      exact congrArg some (inputs.component_eq (some i) (emitDeep_sym found))
    | @pow b n base nonzero =>
      have power : emitPower (emitDeep depth) (Coeff.pow b (ofInt n)) = .ok c := by
        cases base <;> exact emitted
      exact eval_emitPower emits (.pow base nonzero) power
    | prod q factors => exact eval_emitProduct emits (.prod q factors) emitted
    | @sum ts q terms =>
      obtain ⟨parts, whole⟩ := (Defined.sum (r := inputs.reading) q terms).summands
      have perm := orderedTerms_perm (Coeff.sum (.exact q) ts)
      have value := eval_joinSum emits (AllDefined.perm parts perm) emitted
      rwa [total_perm perm, total, whole] at value

theorem eval_emit (defined : Defined inputs.reading e) (emitted : e.emit = .ok c) :
    inputs.valuation.eval c = some (value inputs.reading e) :=
  emits_emitDeep inputs _ e c defined emitted

end Bladewright.Coeff
