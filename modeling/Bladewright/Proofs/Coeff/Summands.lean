import Bladewright.Proofs.Coeff.PowerProduct

/-!
Summands of expanded expressions, which are numbers and terms, under products and powers: both give summands.
Exponents are added up and multiplied, so a kind of exponents that is closed under addition stays (`Raised`).
-/
namespace Bladewright

open List Scalar

namespace Variable

theorem isBare_read (v : Variable) : v.read.isBare := by
  rcases v with s | ⟨s, _ | i⟩ <;> rfl

end Variable

namespace Coeff

variable {ops : Operations} {N : Scalar → Prop}

theorem bases_read : Bases Variable.read where
  bare := Variable.isBare_read
  finite {v c ts} equal := by rcases v with s | ⟨s, _ | i⟩ <;> cases equal
  apart v w := by
    rw [same, Variable.cmp_read, beq_iff_eq]
    exact ⟨Variable.eq_of_cmp, fun equal => equal ▸ Std.ReflCmp.compare_self⟩

def Raised (E : ℤ → Prop) (m : Monomial) : Prop := ∀ p ∈ m.powers, E p.2

variable {E : ℤ → Prop}

variable {c : Scalar} {l : List (Variable × ℤ)} {p : Variable × ℤ} {e : Coeff} {es : List Coeff} {n : ℤ}

theorem isSummand_ofFactors (finite : c.isFinite) (nonzero : c.isZero = false)
    (distinct : (l.map Prod.fst).Nodup) (proper : ∀ p ∈ l, p.2 ≠ 0) (raised : ∀ p ∈ l, E p.2) :
    IsSummand (Raised E) (ofFactors c (arrange (l.map factor))) := by
  rw [arrange_factors]
  by_cases empty : l = []
  · rw [empty, mergeSort_nil]
    exact .num finite
  · have listed : (Monomial.ofPowers l distinct proper).powers ≠ [] := by
      simpa [Monomial.ofPowers, ← length_eq_zero_iff] using empty
    refine .term (t := (c, Monomial.ofPowers l distinct proper)) ⟨finite, fun p mem => ?_, listed⟩ nonzero
    exact raised p (mem_mergeSort.mp mem)

theorem isSummand_factor (nonzero : p.2 ≠ 0) (raised : E p.2) : IsSummand (Raised E) (factor p) := by
  have summand : IsSummand (Raised E) (ofFactors 1 (arrange ([p].map factor))) :=
    isSummand_ofFactors rfl rfl (by simp) (by simpa using nonzero) (by simpa using raised)
  rwa [map_singleton, show arrange [factor p] = [factor p] from rfl, ofFactors_one] at summand

theorem eq_of_ofFactors {d : Scalar} (equal : ofFactors c (l.map factor) = num d) : c = d := by
  by_cases empty : l = []
  · subst empty
    cases equal
    rfl
  · have symbolic := (toScalar?_ofFactors (c := c) empty).1
    rw [equal] at symbolic
    cases symbolic

theorem IsSummand.parts (kind : Scalar.Kind N) (summand : IsSummand (Raised E) e)
    (own : ∀ c, e = Coeff.num c → N c) : ∃ m : Monomial, Parts N Variable.read [e] m.powers ∧ Raised E m := by
  cases summand with
  | num => exact ⟨⟨[], by simp, by simp, by simp⟩, .num (own _ rfl), by simp [Raised]⟩
  | @term t weighted nonzero =>
    have terms : ∀ f ∈ t.2.powers.map factor, f.isTerm := by
      intro f mem
      obtain ⟨p, -, rfl⟩ := mem_map.mp mem
      exact (factor_isTerm p).1
    exact ⟨t.2, .ofFactors bases_read (kind.proper weighted.finite nonzero) _ (.refl _) terms, weighted.kind⟩

theorem exists_parts (kind : Scalar.Kind N) (summands : ∀ e ∈ es, IsSummand (Raised E) e)
    (own : ∀ c, num c ∈ es → N c) : ∃ l, Parts N Variable.read es l ∧ ∀ p ∈ l, E p.2 := by
  induction es with
  | nil => exact ⟨[], .nil, by simp⟩
  | cons e es ih =>
    rw [forall_mem_cons] at summands
    obtain ⟨m, first, raised⟩ := summands.1.parts kind fun c equal => own c (by simp [equal])
    obtain ⟨k, rest, others⟩ := ih summands.2 fun c mem => own c (mem_cons_of_mem _ mem)
    exact ⟨m.powers ++ k, first.append rest, forall_mem_append.mpr ⟨raised, others⟩⟩

theorem isSummand_productStep (kind : Scalar.Kind N) (add : ∀ m n, E m → E n → E (m + n)) (depth : Nat)
    (summands : ∀ e ∈ es, IsSummand (Raised E) e) (own : ∀ c, num c ∈ es → N c) :
    IsSummand (Raised E) (productStep (operations depth) es) ∧
      ∀ c, productStep (operations depth) es = num c → N c := by
  rcases productStep_cases (operations depth) es with one | ⟨e, mem, single⟩ | ⟨c, ts, -, mem, -⟩ | many
  · rw [one]
    refine ⟨.num rfl, fun c equal => ?_⟩
    cases equal
    exact kind.proper rfl rfl
  · rw [single]
    exact ⟨summands e mem, fun c equal => own c (equal ▸ mem)⟩
  · cases (summands _ mem).isSum
  · obtain ⟨l, parts, raised⟩ := exists_parts kind
      (fun e (mem : e ∈ es.filter (!·.isOne)) => summands e (mem_of_mem_filter mem)) fun c mem => own c (mem_of_mem_filter mem)
    obtain ⟨c, k, number, perm, product⟩ := multiply_parts kind bases_read depth parts
    rw [many, product]
    split
    · refine ⟨.num (kind.finite number), fun d equal => ?_⟩
      cases equal
      exact number
    · rename_i nonzero
      have nonzero : c.isZero = false := by simpa using nonzero
      have gathered_raised := forall_gathered add fun p mem => raised p (perm.mem_iff.mp mem)
      have distinct := (nodup_gathered k).sublist ((filter_sublist (p := (·.2 ≠ 0))).map Prod.fst)
      have summand : IsSummand (Raised E) (ofFactors c (arrange (((gathered k).filter (·.2 ≠ 0)).map factor))) :=
        isSummand_ofFactors (kind.finite number) nonzero distinct
          (fun p mem => by simpa using (mem_filter.mp mem).2)
          fun p mem => gathered_raised p (mem_of_mem_filter mem)
      refine ⟨summand, fun d equal => ?_⟩
      rw [show power Variable.read = factor from rfl, arrange_factors] at equal
      exact eq_of_ofFactors equal ▸ number

/-! ### Powers of summands -/

theorem powerUnsigned_approx {q : ℚ} (proper : n < 0 → q ≠ 0) (zero : n ≠ 0) :
    ∃ d : Scalar, d.isFinite ∧ powerUnsigned ops (num (.approx q)) (ofInt n) = num d := by
  have resolved : powerUnsigned ops (num (.approx q)) (ofInt n) =
      (approxBase (ofInt n) q ops).getD (pow (num (.approx q)) (ofInt n)) := rfl
  rw [resolved]
  unfold approxBase
  by_cases vanishes : q = 0
  · have positive : 0 < n := by
      by_contra negative
      exact proper (by omega) vanishes
    exact ⟨.approx 0, rfl, by simp [vanishes, positive]⟩
  · refine ⟨.approx (approxPower precision q n), rfl, ?_⟩
    simp [vanishes, ofInt, Scalar.ofInt, Scalar.power]

theorem operations_pow_finite (depth : Nat) (finite : c.isFinite) (zero : n ≠ 0) (proper : n < 0 → c.isZero = false) :
    ∃ d : Scalar, d.isFinite ∧ (operations (depth + 2)).pow (num c) (ofInt n) = num d := by
  cases c with
  | exact q =>
    refine ⟨(exact q).power n, ?_, operations_pow_num depth (c := .exact q) trivial zero⟩
    rw [power_exact fun negative => by simpa using proper negative]
    rfl
  | approx q =>
    have proper : n < 0 → q ≠ 0 := fun negative => by simpa [Scalar.isZero] using proper negative
    by_cases one : n = 1
    · exact ⟨.approx q, rfl, by rw [one]; rfl⟩
    · have power (depth : Nat) {p : ℚ} (base : n < 0 → p ≠ 0) (nonneg : ¬ p < 0) :
          ∃ d : Scalar, d.isFinite ∧ (operations (depth + 1)).pow (num (.approx p)) (ofInt n) = num d := by
        show ∃ d : Scalar, d.isFinite ∧ powerStep (operations depth) (num (.approx p)) (ofInt n) = num d
        rw [powerStep_proper zero one]
        simpa [unsignedBase?, isNegative, nonneg] using powerUnsigned_approx base zero
      by_cases negative : q < 0
      · have size : unsignedBase? (operations (depth + 1)) (num (.approx q)) = some (num (.approx (-q))) := by
          simp [unsignedBase?, isNegative, negative]
          rfl
        show ∃ d : Scalar, d.isFinite ∧ powerStep (operations (depth + 1)) (num (.approx q)) (ofInt n) = num d
        rw [powerStep_proper zero one, size, Option.elim_some]
        have base : n < 0 → -q ≠ 0 := fun below => neg_ne_zero.mpr (proper below)
        split
        · exact powerUnsigned_approx base zero
        · obtain ⟨d, own, value⟩ := power depth base (by linarith)
          exact ⟨-d, isFinite_neg own, by rw [value]; rfl⟩
      · exact power (depth + 1) proper negative
  | _ => cases finite

theorem take_finite_power (depth : Nat) (finite : c.isFinite) (zero : n ≠ 0)
    (proper : n < 0 → c.isZero = false) : ∃ d : Scalar, d.isFinite ∧ ∀ s : Sorted,
      s.take (operations (depth + 2)) (pow (num c) (ofInt n)) = { s with number := s.number * d } := by
  cases c with
  | exact q =>
    refine ⟨(Scalar.exact q).power n, ?_, take_number_power depth (c := .exact q) trivial zero⟩
    rw [Scalar.power_exact fun negative => by simpa using proper negative]
    rfl
  | approx q =>
    obtain ⟨d, own, value⟩ := operations_pow_finite depth finite zero proper
    refine ⟨d, own, fun s => ?_⟩
    simp only [ofInt, Scalar.ofInt] at value
    simp [Sorted.take, baseExponent, ofInt, Scalar.ofInt, value]
  | _ => cases finite

theorem same_factor (p q : Variable × ℤ) : same (factor p) (factor q) = true ↔ p = q := by
  rw [same, cmp_factor, beq_iff_eq]
  exact ⟨Std.LawfulEqCmp.eq_of_compare, fun equal => equal ▸ Std.ReflCmp.compare_self⟩

theorem operations_pow_factor (depth : Nat) (nonzero : p.2 ≠ 0) (zero : n ≠ 0) (one : n ≠ 1) :
    (operations (depth + 2)).pow (factor p) (ofInt n) = factor (p.1, p.2 * n) := by
  have bare := p.1.isBare_read
  by_cases single : p.2 = 1
  · rw [factor, factor, single, one_mul, wholePower, if_pos rfl]
    exact operations_pow_whole (depth + 1) bare zero
  · rw [factor, factor, wholePower, if_neg single]
    exact operations_pow_pow depth bare nonzero zero one

theorem evaluatePowers_factors (depth : Nat) (nonzero : ∀ p ∈ l, p.2 ≠ 0) (zero : n ≠ 0)
    (one : n ≠ 1) : ∃ parts, evaluatePowers (operations (depth + 2)) (l.map fun p => (factor p, ofInt n)) =
      (l.map fun p => factor (p.1, p.2 * n), parts, false) := by
  induction l with
  | nil => exact ⟨[], rfl⟩
  | cons p l ih =>
    rw [forall_mem_cons] at nonzero
    obtain ⟨parts, before⟩ := ih nonzero.2
    have value := operations_pow_factor depth nonzero.1 zero one
    have bare := p.1.isBare_read
    unfold evaluatePowers at before ⊢
    rw [map_cons, foldr_cons, before]
    dsimp only
    split
    · rename_i equal
      exact absurd (by simpa [ofInt, Scalar.ofInt] using equal) one
    · rw [if_neg (by simp [zero]), value]
      split
      · rename_i power
        -- a power of an input itself is split into that input and the exponent
        have single : p.2 = 1 := by
          by_contra several
          have inner : (factor p).isPow = true := by
            rw [factor, wholePower, if_neg several]
            generalize p.1.read = b at bare
            cases b <;> first | rfl | cases bare
          rw [inner, Bool.not_true, Bool.and_false] at power
          cases power
        have own : (factor (p.1, p.2 * n)).baseExponent = (factor p, ofInt n) := by
          have split := bases_read.baseExponent (p.1, p.2 * n)
          rw [single, one_mul] at split ⊢
          have base : factor p = p.1.read := by rw [factor, wholePower, if_pos single]
          rw [base]
          exact split
        rw [own, same_self]
        exact ⟨_, rfl⟩
      · exact ⟨_, rfl⟩

theorem isNumeric_read (v : Variable) : v.read.isNumeric = false := by
  rcases v with s | ⟨s, _ | i⟩ <;> simp [Variable.read, isNumeric]

theorem isNumeric_factor (p : Variable × ℤ) : (factor p).isNumeric = false := by
  unfold factor wholePower
  split <;> simp [isNumeric, isNumeric_read]

theorem isNumeric_prod (c : Scalar) (listed : l ≠ []) : (prod c (l.map factor)).isNumeric = false := by
  obtain ⟨p, mem⟩ := exists_mem_of_ne_nil l listed
  simpa [isNumeric] using ⟨p.1, p.2, mem, isNumeric_factor p⟩

theorem isNumeric_ofFactors (listed : l ≠ []) : (ofFactors c (l.map factor)).isNumeric = false := by
  obtain _ | ⟨p, _ | ⟨q, l⟩⟩ := l
  · exact absurd rfl listed
  · rw [map_singleton, ofFactors_single (factor_isTerm p).1]
    split
    · exact isNumeric_factor p
    · exact isNumeric_prod c listed
  · rw [ofFactors_several c (by simp)]
    exact isNumeric_prod c listed

theorem operations_pow_factors (depth : Nat) (finite : c.isFinite) (nonzero : c.isZero = false)
    (distinct : (l.map Prod.fst).Nodup) (proper : ∀ p ∈ l, p.2 ≠ 0) (listed : l ≠ [])
    (zero : n ≠ 0) (one : n ≠ 1) : ∃ d : Scalar, d.isFinite ∧
      (operations (depth + 4)).pow (ofFactors c (l.map factor)) (ofInt n) =
        if d.isZero then num d else ofFactors d (arrange (l.map fun p => factor (p.1, p.2 * n))) := by
  have symbolic : ∀ f ∈ l.map factor, f.toScalar? = none := by
    intro f mem
    obtain ⟨p, -, rfl⟩ := mem_map.mp mem
    exact bases_read.toScalar? p
  have product (several : 2 ≤ (prod c (l.map factor)).multiplicands.length) : ∃ d : Scalar, d.isFinite ∧
      (operations (depth + 4)).pow (prod c (l.map factor)) (ofInt n) =
        if d.isZero then num d else ofFactors d (arrange (l.map fun p => factor (p.1, p.2 * n))) := by
    obtain ⟨d, own, raised⟩ := take_finite_power depth finite zero fun _ => nonzero
    have groups : gather (operations (depth + 2)) ((l.map factor).map fun f => (f, ofInt n)) =
        l.map fun p => (factor p, ofInt n) := by
      have listed : (l.map factor).map (fun f => (f, ofInt n)) = (l.map fun p => (p, n)).map fun q => (factor q.1, ofInt q.2) := by
        simp
      have keys : ((l.map fun p => (p, n)).map Prod.fst).Nodup := by simpa [Function.comp_def] using distinct.of_map
      rw [listed, gather_powers same_factor, gathered_of_nodup keys]
      simp
    have bounded : cancelsInfinity (l.map fun p => (factor p, ofInt n)) = false := by
      rw [cancelsInfinity, any_map, any_eq_false]
      intro p _
      have plain := (factor_isTerm p).2
      have term := (factor_isTerm p).1
      simp only [Function.comp_apply]
      generalize factor p = f at plain term
      cases f <;> first | exact Bool.false_ne_true | cases plain | cases term
    obtain ⟨parts, powers⟩ := evaluatePowers_factors depth proper zero one
    have number : (if c.isOne then 1 else 1 * d).isFinite := by
      split
      · rfl
      · exact isFinite_mul rfl own
    refine ⟨_, number, ?_⟩
    rw [operations_pow_prod (depth + 2) (isNumeric_prod c listed) several zero one, multiply_raised raised symbolic, groups, evaluateAll,
      bounded, powers]
    refine settleNumber_finite number fun f mem => ?_
    obtain ⟨p, -, rfl⟩ := mem_map.mp mem
    exact bases_read.toScalar? (p.1, p.2 * n)
  obtain _ | ⟨p, _ | ⟨q, l⟩⟩ := l
  · exact absurd rfl listed
  · rw [map_singleton, ofFactors_single (factor_isTerm p).1]
    split
    · refine ⟨1, rfl, ?_⟩
      have value := operations_pow_factor (depth + 2) (proper p (by simp)) zero one
      rw [value, if_neg (by decide), map_singleton]
      exact (ofFactors_single (c := 1) (factor_isTerm (p.1, p.2 * n)).1).symm
    · rename_i other
      exact product (by simp [multiplicands, other])
  · rw [ofFactors_several c (by simp)]
    exact product (by unfold multiplicands; simp only; split <;> simp)

theorem IsSummand.raise {E' : ℤ → Prop} (exponents : ∀ m, E m → E' (m * n))
    (summand : IsSummand (Raised E) e) (zero : n ≠ 0) (proper : ∀ c, e = Coeff.num c → n < 0 → c.isZero = false) :
    IsSummand (Raised E') (raise e (ofInt n)) := by
  cases summand with
  | @num c finite =>
    obtain ⟨d, own, value⟩ := operations_pow_finite 38 finite zero (proper c rfl)
    rw [Coeff.raise, depthLimit, value]
    exact .num own
  | @term t weighted nonzero =>
    by_cases one : n = 1
    · subst one
      refine .term (t := t) ⟨weighted.finite, fun p mem => ?_, weighted.proper⟩ nonzero
      simpa using exponents p.2 (weighted.kind p mem)
    · obtain ⟨d, own, value⟩ := operations_pow_factors 36 weighted.finite nonzero t.2.distinct t.2.nonzero weighted.proper
        zero one
      rw [Coeff.raise, depthLimit, Monomial.term, value]
      split
      · exact .num own
      · rename_i number
        have listed : (t.2.powers.map fun p => factor (p.1, p.2 * n)) =
            (t.2.powers.map fun p => (p.1, p.2 * n)).map factor := by simp
        rw [listed]
        refine isSummand_ofFactors own (by simpa using number) (by simpa [Function.comp_def] using t.2.distinct) ?_ ?_
        · intro q mem
          obtain ⟨p, inside, rfl⟩ := mem_map.mp mem
          exact mul_ne_zero (t.2.nonzero p inside) zero
        · intro q mem
          obtain ⟨p, inside, rfl⟩ := mem_map.mp mem
          exact exponents p.2 (weighted.kind p inside)

end Coeff

end Bladewright
