import Bladewright.Proofs.Coeff.MonomialOrder

/-!
Expanded expressions: a finite number plus terms, each of them a finite number other than zero times a monomial, with
distinct monomials (`Expanded`).
-/
namespace Bladewright

open List Std Scalar Monomial

namespace Scalar

theorem isFinite_ofRounding (q : ℚ) : (ofRounding q).isFinite = true := by
  unfold ofRounding
  split <;> rfl

variable {c d : Scalar}

theorem isFinite_add (left : c.isFinite) (right : d.isFinite) : (c + d).isFinite := by
  cases c <;> cases d <;> first
    | rfl
    | exact isFinite_ofRounding _
    | exact absurd left Bool.false_ne_true
    | exact absurd right Bool.false_ne_true

theorem isFinite_mul (left : c.isFinite) (right : d.isFinite) : (c * d).isFinite := by
  cases c <;> cases d <;> first
    | rfl
    | exact isFinite_ofRounding _
    | exact absurd left Bool.false_ne_true
    | exact absurd right Bool.false_ne_true

theorem isZero_ofRounding {q : ℚ} (nonzero : q ≠ 0) : (ofRounding q).isZero = false := by
  rw [ofRounding, if_neg nonzero]
  simpa [isZero, rounded] using Numeral.roundBits_ne_zero (by decide) nonzero

theorem add_eq_zero (left : c.isFinite) (right : d.isFinite) (zero : (c + d).isZero) : c + d = 0 := by
  have rounding {q : ℚ} (zero : (ofRounding q).isZero) : ofRounding q = 0 := by
    by_cases vanishes : q = 0
    · rw [ofRounding, if_pos vanishes]
      rfl
    · rw [isZero_ofRounding vanishes] at zero
      cases zero
  cases c with
  | exact p =>
    cases d with
    | exact q =>
      rw [exact_add] at zero ⊢
      simp at zero
      rw [zero]
      rfl
    | approx q => exact rounding zero
    | _ => cases right
  | approx p =>
    cases d with
    | exact q => exact rounding zero
    | approx q => exact rounding zero
    | _ => cases right
  | _ => cases left

theorem isFinite_neg (finite : c.isFinite) : (-c).isFinite := by
  cases c <;> first | rfl | cases finite

theorem isFinite_foldl {op : Scalar → Scalar → Scalar} (closed : ∀ {c d}, c.isFinite → d.isFinite → (op c d).isFinite)
    {cs : List Scalar} (finite : ∀ c ∈ cs, c.isFinite) (start : d.isFinite) :
    (cs.foldl op d).isFinite := by
  induction cs generalizing d with
  | nil => exact start
  | cons c cs ih =>
    rw [forall_mem_cons] at finite
    exact ih finite.2 (closed start finite.1)

theorem eq_one_of_isOne (one : c.isOne) : c = 1 := eq_of_beq one

end Scalar

namespace Coeff

/-! ### Terms -/

theorem factor_isTerm (p : Variable × ℤ) : (factor p).isTerm ∧ (factor p).isFactor := by
  obtain ⟨v, n⟩ := p
  unfold factor wholePower
  rcases v with s | ⟨s, _ | i⟩ <;> split <;> exact ⟨rfl, rfl⟩

theorem ofFactors_single {c : Scalar} {f : Coeff} (term : f.isTerm) :
    ofFactors c [f] = if c.isOne then f else prod c [f] := by
  cases f <;> first | rfl | cases term

theorem ofFactors_several (c : Scalar) {fs : List Coeff} (several : 2 ≤ fs.length) : ofFactors c fs = prod c fs := by
  obtain _ | ⟨f, _ | ⟨g, fs⟩⟩ := fs
  · simp at several
  · simp at several
  · cases f <;> rfl

end Coeff

open Coeff

def Monomial.term (m : Monomial) (c : Scalar) : Coeff := ofFactors c (m.powers.map factor)

namespace Coeff

section

variable {c : Scalar} {l : List (Variable × ℤ)} (proper : l ≠ [])
include proper

theorem splitNumber_ofFactors (finite : c.isFinite) : (ofFactors c (l.map factor)).splitNumber = (c, rest l) := by
  have known : c ≠ .unsigned := by
    rintro rfl
    cases finite
  obtain _ | ⟨p, _ | ⟨q, l⟩⟩ := l
  · exact absurd rfl proper
  · obtain ⟨term, power⟩ := factor_isTerm p
    rw [map_singleton, ofFactors_single term]
    split
    · rename_i one
      rw [eq_one_of_isOne one]
      show (factor p).splitNumber = (1, factor p)
      generalize factor p = f at power
      cases f <;> first | rfl | cases power
    · exact if_neg known
  · rw [ofFactors_several c (by simp)]
    exact if_neg known

theorem withNumber_rest (c : Scalar) : withNumber c (rest l) = ofFactors c (l.map factor) := by
  obtain _ | ⟨p, _ | ⟨q, l⟩⟩ := l
  · exact absurd rfl proper
  · obtain ⟨term, power⟩ := factor_isTerm p
    rw [map_singleton, ofFactors_single term, rest]
    generalize factor p = f at power
    cases f <;> first | rfl | cases power
  · have isOne : Scalar.isOne 1 = true := by simp [Scalar.one_eq]
    rw [ofFactors_several c (by simp)]
    show (if c.isOne then prod 1 _ else if Scalar.isOne 1 then prod c _ else _) = _
    rw [if_pos isOne]
    split
    · rename_i one
      rw [eq_one_of_isOne one]
    · rfl

theorem toScalar?_ofFactors : (ofFactors c (l.map factor)).toScalar? = none ∧
    (ofFactors c (l.map factor)).isSum = false := by
  obtain _ | ⟨p, _ | ⟨q, l⟩⟩ := l
  · exact absurd rfl proper
  · obtain ⟨term, power⟩ := factor_isTerm p
    rw [map_singleton, ofFactors_single term]
    split
    · generalize factor p = f at power term
      cases f <;> first | exact ⟨rfl, rfl⟩ | cases power | cases term
    · exact ⟨rfl, rfl⟩
  · rw [ofFactors_several c (by simp)]
    exact ⟨rfl, rfl⟩

end

variable {M : Monomial → Prop}

/-- A finite number in front of a monomial of a kind, other than one. -/
structure Weighted (M : Monomial → Prop) (t : Scalar × Monomial) : Prop where
  finite : t.1.isFinite
  kind : M t.2
  proper : t.2.powers ≠ []

/-- Summands of expanded expressions: finite numbers, and terms whose number is not zero. -/
inductive IsSummand (M : Monomial → Prop) : Coeff → Prop
  | num {c : Scalar} (finite : c.isFinite) : IsSummand M (num c)
  | term {t : Scalar × Monomial} (weighted : Weighted M t) (nonzero : t.1.isZero = false) :
      IsSummand M (t.2.term t.1)

/-- A number and terms with distinct monomials: all of them finite, no term zero, and the number beside a term no
approximate zero. -/
structure Summed (M : Monomial → Prop) (c : Scalar) (l : List (Scalar × Monomial)) : Prop where
  finite : c.isFinite
  vanishes : l ≠ [] → c.isZero → c = 0
  terms : ∀ t ∈ l, Weighted M t ∧ t.1.isZero = false
  distinct : (l.map Prod.snd).Nodup

/-- A finite number plus terms with distinct monomials. -/
def Expanded (M : Monomial → Prop) (e : Coeff) : Prop :=
  ∃ c l, Summed M c l ∧ e = ofTerms c (l.map fun t => t.2.term t.1)

variable {e : Coeff} {es : List Coeff} {m : Monomial}

theorem IsSummand.expanded (summand : IsSummand M e) : Expanded M e := by
  cases summand with
  | @num c finite => exact ⟨c, [], ⟨finite, by simp, by simp, by simp⟩, rfl⟩
  | @term t weighted nonzero =>
    refine ⟨0, [t], ⟨rfl, fun _ _ => rfl, by simpa using ⟨weighted, nonzero⟩, by simp⟩, ?_⟩
    simp [ofTerms]

theorem IsSummand.isSum (summand : IsSummand M e) : e.isSum = false := by
  cases summand with
  | num => rfl
  | term weighted => exact (toScalar?_ofFactors weighted.proper).2

theorem Expanded.cases (expanded : Expanded M e) : IsSummand M e ∨ ∃ c ts, e = sum c ts ∧ ts ≠ [] ∧ c.isFinite ∧
      ∀ t ∈ ts, ∃ w : Scalar × Monomial, Weighted M w ∧ w.1.isZero = false ∧ t = w.2.term w.1 := by
  obtain ⟨c, l, ⟨finite, -, terms, -⟩, rfl⟩ := expanded
  have listed : ∀ t ∈ l.map fun t => t.2.term t.1,
      ∃ w : Scalar × Monomial, Weighted M w ∧ w.1.isZero = false ∧ t = w.2.term w.1 := by
    intro t mem
    obtain ⟨w, inside, rfl⟩ := mem_map.mp mem
    exact ⟨w, (terms w inside).1, (terms w inside).2, rfl⟩
  unfold ofTerms
  split
  · exact .inl (.num finite)
  · rename_i t only
    obtain ⟨w, weighted, nonzero, same⟩ := listed t (by simp [only])
    split
    · exact .inl (same ▸ .term weighted nonzero)
    · exact .inr ⟨c, [t], rfl, by simp, finite, only ▸ listed⟩
  · rename_i nonempty _
    exact .inr ⟨c, _, rfl, nonempty, finite, listed⟩

theorem Expanded.summands (expanded : Expanded M e) : ∀ t ∈ e.summands, IsSummand M t := by
  rcases expanded.cases with summand | ⟨c, ts, rfl, -, finite, terms⟩
  · have parts : e.summands = [e] := by
      have other := summand.isSum
      cases e <;> first | rfl | cases other
    simpa [parts] using summand
  · have parts : ∀ t ∈ ts, IsSummand M t := by
      intro t mem
      obtain ⟨w, weighted, nonzero, rfl⟩ := terms t mem
      exact .term weighted nonzero
    unfold Coeff.summands
    simp only
    split
    · exact parts
    · exact forall_mem_cons.mpr ⟨.num finite, parts⟩

/-! ### Merging -/

def view (t : Scalar × Monomial) : Scalar × Coeff := (t.1, rest t.2.powers)

theorem exists_views (summands : ∀ e ∈ es, IsSummand M e) : ∃ l : List (Scalar × Monomial), (∀ t ∈ l, Weighted M t) ∧
      (es.filter (·.toScalar?.isNone)).map splitNumber = l.map view := by
  induction es with
  | nil => exact ⟨[], by simp, rfl⟩
  | cons e es ih =>
    rw [forall_mem_cons] at summands
    obtain ⟨l, weighted, views⟩ := ih summands.2
    cases summands.1 with
    | num => exact ⟨l, weighted, views⟩
    | @term t own nonzero =>
      refine ⟨t :: l, forall_mem_cons.mpr ⟨own, weighted⟩, ?_⟩
      have symbolic : (t.2.term t.1).toScalar?.isNone := by rw [term, (toScalar?_ofFactors own.proper).1]; rfl
      rw [filter_cons, if_pos symbolic, map_cons, map_cons, views, term,
        splitNumber_ofFactors own.proper own.finite, view]

theorem sortTerms_views (l : List (Scalar × Monomial)) :
    sortTerms (l.map view) = (l.mergeSort fun s t => s.2.cmp t.2 != .gt).map view := by
  rw [sortTerms, sortBy, sortWithin_eq_mergeSort _ le_rfl]
  exact (map_mergeSort fun s _ t _ => by rw [view, view, cmp_rest, Monomial.cmp]).symm

theorem same_rest {n : Monomial} : same (rest m.powers) (rest n.powers) = true ↔ m = n := by
  rw [same, cmp_rest, beq_iff_eq]
  exact ⟨eq_of_cmp, fun equal => equal ▸ ReflCmp.compare_self⟩

/-- Merging sorted terms leaves each monomial once: the one that is gathered comes before all that follow. -/
theorem go_views {c : Scalar} {l : List (Scalar × Monomial)} (first : Weighted M (c, m))
    (others : ∀ t ∈ l, Weighted M t) (sorted : ((c, m) :: l).Pairwise fun s t => (s.2.cmp t.2 != .gt) = true) :
    ∃ k : List (Scalar × Monomial), mergeTerms.go c (rest m.powers) (l.map view) = k.map view ∧
      (∀ t ∈ k, Weighted M t ∧ (m.cmp t.2 != .gt) = true) ∧ k.Pairwise fun s t => s.2.cmp t.2 = .lt := by
  induction l generalizing c m with
  | nil =>
    have own : m.cmp m ≠ .gt := by rw [Monomial.cmp_self]; nofun
    exact ⟨[(c, m)], rfl, by simpa using ⟨first, own⟩, by simp⟩
  | cons t l ih =>
    obtain ⟨d, n⟩ := t
    rw [forall_mem_cons] at others
    obtain ⟨before, later⟩ := pairwise_cons.mp sorted
    rw [map_cons, view, mergeTerms.go]
    by_cases equal : m = n
    · subst equal
      rw [if_pos (same_rest.mpr rfl)]
      refine ih ⟨isFinite_add first.finite others.1.finite, first.kind, first.proper⟩ others.2 ?_
      exact pairwise_cons.mpr ⟨fun t mem => before t (mem_cons_of_mem _ mem),
        (pairwise_cons.mp later).2⟩
    · obtain ⟨k, merged, weighted, strict⟩ := ih others.1 others.2 later
      have below : m.cmp n = .lt := by
        have le := before (d, n) mem_cons_self
        cases order : m.cmp n with
        | lt => rfl
        | eq => exact absurd (eq_of_cmp order) equal
        | gt =>
          rw [order] at le
          cases le
      have least : ∀ t ∈ k, m.cmp t.2 = .lt := by
        intro t mem
        have le := (weighted t mem).2
        rw [bne_iff_ne, ne_eq, ← Ordering.isLE_iff_ne_gt] at le
        exact TransCmp.lt_of_lt_of_isLE below le
      refine ⟨(c, m) :: k, ?_, forall_mem_cons.mpr ⟨⟨first, ?_⟩, fun t mem => ⟨(weighted t mem).1, ?_⟩⟩,
        pairwise_cons.mpr ⟨least, strict⟩⟩
      · rw [if_neg (mt same_rest.mp equal), merged]
        rfl
      · rw [Monomial.cmp_self]
        rfl
      · rw [least t mem]
        rfl

theorem mergeTerms_distinct {terms : List (Scalar × Coeff)}
    (distinct : terms.Pairwise fun s t => same s.2 t.2 = false) : mergeTerms terms = terms := by
  have run : ∀ (terms : List (Scalar × Coeff)) (c : Scalar) (e : Coeff),
      ((c, e) :: terms).Pairwise (fun s t => same s.2 t.2 = false) → mergeTerms.go c e terms = (c, e) :: terms := by
    intro terms
    induction terms with
    | nil => intro c e _; rfl
    | cons t terms ih =>
      intro c e distinct
      rw [pairwise_cons] at distinct
      rw [mergeTerms.go, distinct.1 t mem_cons_self, ih _ _ distinct.2]
      rfl
  cases terms with
  | nil => rfl
  | cons t terms => exact run terms t.1 t.2 distinct

theorem view_injective : Function.Injective view := by
  rintro ⟨c, m⟩ ⟨d, n⟩ equal
  obtain ⟨numbers, rests⟩ := Prod.mk.inj equal
  exact Prod.ext numbers (same_rest.mp (rests ▸ same_self _))

theorem mergeTerms_views {l : List (Scalar × Monomial)} (weighted : ∀ t ∈ l, Weighted M t) :
    ∃ k : List (Scalar × Monomial), mergeTerms (sortTerms (l.map view)) = k.map view ∧
      (∀ t ∈ k, Weighted M t) ∧ (k.map Prod.snd).Nodup ∧ ((l.map Prod.snd).Nodup → k.Perm l) := by
  rw [sortTerms_views]
  have sorted : (l.mergeSort fun s t => s.2.cmp t.2 != .gt).Pairwise fun s t => (s.2.cmp t.2 != .gt) = true :=
    pairwise_mergeSort (fun s t u => trans_of_cmp s.2 t.2 u.2) (fun s t => total_of_cmp s.2 t.2) l
  have weighted : ∀ t ∈ l.mergeSort (fun s t => s.2.cmp t.2 != .gt), Weighted M t :=
    fun t mem => weighted t (mem_mergeSort.mp mem)
  have perm := mergeSort_perm l fun s t => s.2.cmp t.2 != .gt
  cases listed : l.mergeSort fun s t => s.2.cmp t.2 != .gt with
  | nil => exact ⟨[], rfl, by simp, by simp, fun _ => listed ▸ perm⟩
  | cons t l =>
    rw [listed] at sorted weighted perm
    obtain ⟨first, others⟩ := forall_mem_cons.mp weighted
    obtain ⟨k, merged, weighted, strict⟩ := go_views first others sorted
    refine ⟨k, merged, fun t mem => (weighted t mem).1, pairwise_map.mpr (strict.imp fun below equal => ?_),
      fun distinct => ?_⟩
    · rw [equal, Monomial.cmp_self] at below
      cases below
    · have apart : ((t :: l).map view).Pairwise fun s u => same s.2 u.2 = false := by
        have monomials : ((t :: l).map Prod.snd).Nodup := (perm.map Prod.snd).nodup_iff.mpr distinct
        refine pairwise_map.mpr ((pairwise_map.mp monomials).imp fun differ => ?_)
        exact Bool.eq_false_iff.mpr (mt same_rest.mp differ)
      rw [view_injective.list_map (merged.symm.trans (mergeTerms_distinct apart))]
      exact perm

/-! ### Sums -/

theorem finite_toScalar? (summands : ∀ e ∈ es, IsSummand M e) : ∀ c ∈ es.filterMap toScalar?, c.isFinite := by
  intro c mem
  obtain ⟨e, inside, found⟩ := mem_filterMap.mp mem
  cases summands e inside with
  | num finite =>
    cases found
    exact finite
  | term weighted =>
    rw [term, (toScalar?_ofFactors weighted.proper).1] at found
    cases found

theorem numberOf_eq_zero (finite : ∀ c ∈ es.filterMap toScalar?, c.isFinite)
    (zero : (numberOf es).isZero) : numberOf es = 0 := by
  have sum : ∀ (cs : List Scalar) (d : Scalar), (∀ c ∈ cs, c.isFinite) → d.isFinite → (d.isZero → d = 0) →
      (cs.foldl (· + ·) d).isZero → cs.foldl (· + ·) d = 0 := by
    intro cs
    induction cs with
    | nil => exact fun _ _ _ vanishes zero => vanishes zero
    | cons c cs ih =>
      intro d finite start _ zero
      rw [forall_mem_cons] at finite
      exact ih _ finite.2 (isFinite_add start finite.1) (add_eq_zero start finite.1) zero
  exact sum _ 0 finite rfl (fun _ => rfl) zero

theorem collect_views (summands : ∀ e ∈ es, IsSummand M e) {l : List (Scalar × Monomial)}
    (weighted : ∀ t ∈ l, Weighted M t) (views : (es.filter (·.toScalar?.isNone)).map splitNumber = l.map view) :
    ∃ k, Summed M (numberOf es) k ∧ collect es = ofTerms (numberOf es) (k.map fun t => t.2.term t.1) ∧
      ((l.map Prod.snd).Nodup → (∀ t ∈ l, t.1.isZero = false) → k.Perm l) := by
  have numbers := finite_toScalar? summands
  have number : (numberOf es).isFinite := isFinite_foldl isFinite_add numbers rfl
  have known : numberOf es ≠ .undefined := fun equal => by rw [equal] at number; cases number
  obtain ⟨k, merged, weighted, distinct, all⟩ := mergeTerms_views weighted
  have proper : (k.map view).any (·.1 == .undefined) = false := by
    rw [any_map, any_eq_false]
    intro t mem undefined
    have finite := (weighted t mem).finite
    rw [show t.1 = .undefined from eq_of_beq undefined] at finite
    cases finite
  -- the terms that are left, in the order in which they are arranged
  have kept : ((k.map view).filter (!·.1.isZero)).map (fun t => withNumber t.1 t.2) =
      (k.filter (!·.1.isZero)).map fun t => t.2.term t.1 := by
    rw [filter_map, map_map]
    refine map_congr_left fun t mem => ?_
    exact withNumber_rest (weighted t (mem_of_mem_filter mem)).proper t.1
  have arranged (ts : List (Scalar × Monomial)) : arrange (ts.map fun t => t.2.term t.1) =
      (ts.mergeSort fun s t => Coeff.cmp (s.2.term s.1) (t.2.term t.1) != .gt).map fun t => t.2.term t.1 := by
    rw [arrange, sortBy, sortWithin_eq_mergeSort _ le_rfl]
    exact (map_mergeSort (f := fun t : Scalar × Monomial => t.2.term t.1) fun _ _ _ _ => rfl).symm
  refine ⟨(k.filter (!·.1.isZero)).mergeSort fun s t => Coeff.cmp (s.2.term s.1) (t.2.term t.1) != .gt,
    ⟨number, fun _ => numberOf_eq_zero numbers, fun t mem => ?_, ?_⟩, ?_, fun different nonzero => ?_⟩
  · obtain ⟨inside, nonzero⟩ := mem_filter.mp (mem_mergeSort.mp mem)
    exact ⟨weighted t inside, by simpa using nonzero⟩
  · rw [((mergeSort_perm _ _).map _).nodup_iff]
    exact distinct.sublist (filter_sublist.map _)
  · rw [collect]
    simp only [views, merged, proper, known, kept, number, decide_false, Bool.or_self, Bool.false_eq_true, if_false,
      if_true, arranged]
  · have perm := all different
    refine (mergeSort_perm _ _).trans (List.Perm.trans ?_ perm)
    rw [filter_eq_self.mpr fun t mem => by rw [nonzero t (perm.mem_iff.mp mem)]; rfl]

theorem expanded_collect (summands : ∀ e ∈ es, IsSummand M e) : Expanded M (collect es) := by
  obtain ⟨l, weighted, views⟩ := exists_views summands
  obtain ⟨k, summed, collected, -⟩ := collect_views summands weighted views
  exact ⟨_, k, summed, collected⟩

theorem Expanded.num {c : Scalar} (finite : c.isFinite) : Expanded M (num c) := (IsSummand.num finite).expanded

theorem expanded_addAll (expanded : ∀ e ∈ es, Expanded M e) : Expanded M (addAll es) := by
  unfold addAll
  generalize filtered : es.filter _ = fs
  have kept : ∀ e ∈ fs, Expanded M e := fun e mem => expanded e (mem_of_mem_filter (filtered ▸ mem))
  split
  · exact .num rfl
  · rename_i e
    exact kept e (by simp)
  · refine expanded_collect fun e mem => ?_
    rcases mem_append.mp mem with plain | opened
    · obtain ⟨inside, summand⟩ := mem_filter.mp plain
      rcases (kept e inside).cases with own | ⟨c, ts, rfl, -⟩
      · exact own
      · cases summand
    · obtain ⟨f, inside, part⟩ := mem_flatMap.mp opened
      exact (kept f (mem_of_mem_filter inside)).summands e part

theorem Expanded.add {a b : Coeff} (left : Expanded M a) (right : Expanded M b) : Expanded M (add a b) := by
  have both : Expanded M (addAll [a, b]) := expanded_addAll (by simpa using ⟨left, right⟩)
  unfold Coeff.add
  split
  · rename_i c d
    have first := finite_toScalar? left.summands c (by simp [Coeff.summands, toScalar?])
    have second := finite_toScalar? right.summands d (by simp [Coeff.summands, toScalar?])
    exact .num (isFinite_add first second)
  · exact both

end Coeff

end Bladewright
