import Bladewright.Proofs.Coeff.Summands

/-!
Expanded expressions under the rules of expansion. A number other than zero times a sum is a sum again, as no two
terms are merged and none vanishes.
-/
namespace Bladewright

open List Scalar

variable {c : Scalar}

theorem Scalar.isZero_zero_add (finite : c.isFinite) (nonzero : c.isZero = false) : (0 + c).isZero = false := by
  cases c with
  | exact q =>
    show (exact ((0 : ℕ) + q)).isZero = false
    simpa using nonzero
  | approx q =>
    refine isZero_ofRounding ?_
    show rounded (0 : ℕ) + q ≠ 0
    simpa [rounded, Numeral.roundBits, isZero] using nonzero
  | _ => cases finite

namespace Coeff

variable {M : Monomial → Prop} {E : ℤ → Prop} {rule : Coeff → Coeff}

/-! ### Numbers times sums -/

theorem scaleTerm_term (finite : c.isFinite) (nonzero : c.isZero = false) {t : Scalar × Monomial}
    (weighted : Weighted M t) (own : t.1.isZero = false) :
    ∃ d : Scalar, d.isFinite ∧ d.isZero = false ∧ scaleTerm c (t.2.term t.1) = t.2.term d := by
  obtain ⟨b, m⟩ := t
  have listed : m.powers ≠ [] := weighted.proper
  have product (fs : List Coeff) (terms : ∀ f, fs = [f] → f.isTerm) (nonempty : fs ≠ []) :
      scaleTerm c (prod b fs) = ofFactors (c * b) fs := by
    have number := isZero_mul ⟨finite, weighted.finite⟩ nonzero own
    obtain _ | ⟨f, _ | ⟨g, fs⟩⟩ := fs
    · exact absurd rfl nonempty
    · rw [ofFactors_single (terms f rfl)]
      cases one : (c * b).isOne <;> simp [scaleTerm, number, one]
    · rw [ofFactors_several _ (by simp)]
      cases one : (c * b).isOne <;> simp [scaleTerm, number, one]
  rcases listed : m.powers with _ | ⟨p, _ | ⟨q, l⟩⟩
  · exact absurd listed weighted.proper
  · obtain ⟨term, power⟩ := factor_isTerm p
    by_cases one : b.isOne
    · refine ⟨c, finite, nonzero, ?_⟩
      rw [Monomial.term, Monomial.term, listed, map_singleton, ofFactors_single term, if_pos one,
        ← map_singleton, ← withNumber_rest (by simp)]
      show scaleTerm c (factor p) = withNumber c (factor p)
      generalize factor p = f at power
      cases f <;> first | rfl | cases power
    · refine ⟨c * b, isFinite_mul finite weighted.finite,
        isZero_mul ⟨finite, weighted.finite⟩ nonzero own, ?_⟩
      rw [Monomial.term, Monomial.term, listed, map_singleton, ofFactors_single term, if_neg one]
      exact product _ (by simpa using term) (by simp)
  · refine ⟨c * b, isFinite_mul finite weighted.finite,
      isZero_mul ⟨finite, weighted.finite⟩ nonzero own, ?_⟩
    rw [Monomial.term, Monomial.term, listed, ofFactors_several b (by simp)]
    exact product _ (by simp) (by simp)

variable {l : List (Scalar × Monomial)} {ts es fs : List Coeff} {d : Scalar}

theorem exists_scaled (finite : c.isFinite) (nonzero : c.isZero = false)
    (terms : ∀ t ∈ l, Weighted M t ∧ t.1.isZero = false) :
    ∃ k : List (Scalar × Monomial), (∀ t ∈ k, Weighted M t ∧ t.1.isZero = false) ∧ k.map Prod.snd = l.map Prod.snd ∧
      (l.map fun t => t.2.term t.1).map (scaleTerm c) = k.map fun t => t.2.term t.1 := by
  induction l with
  | nil => exact ⟨[], by simp, rfl, rfl⟩
  | cons t l ih =>
    rw [forall_mem_cons] at terms
    obtain ⟨k, scaled, monomials, equal⟩ := ih terms.2
    obtain ⟨d, own, proper, value⟩ := scaleTerm_term finite nonzero terms.1.1 terms.1.2
    refine ⟨(d, t.2) :: k, forall_mem_cons.mpr ⟨⟨⟨own, terms.1.1.kind, terms.1.1.proper⟩, proper⟩, scaled⟩, ?_, ?_⟩
    · rw [map_cons, map_cons, monomials]
    · rw [map_cons, map_cons, map_cons, equal, value]

theorem map_splitNumber_terms (weighted : ∀ t ∈ l, Weighted M t) :
    (l.map fun t => t.2.term t.1).map splitNumber = l.map view := by
  rw [map_map]
  exact map_congr_left fun t mem => splitNumber_ofFactors (weighted t mem).proper (weighted t mem).finite

theorem isSum_ofTerms (listed : ts ≠ []) (several : c.isZero = false ∨ 2 ≤ ts.length) : (ofTerms c ts).isSum := by
  obtain _ | ⟨t, _ | ⟨u, ts⟩⟩ := ts
  · exact absurd rfl listed
  · have nonzero : c.isZero = false := by simpa using several
    have other : (c == 0) = false := by
      rw [beq_eq_false_iff_ne]
      rintro rfl
      cases nonzero
    rw [ofTerms, if_neg (by simp [other])]
    rfl
  · rfl

theorem isSum_collect (cs : List Scalar) (finite : ∀ c ∈ cs, c.isFinite)
    (terms : ∀ t ∈ l, Weighted M t ∧ t.1.isZero = false) (distinct : (l.map Prod.snd).Nodup) (listed : l ≠ [])
    (several : (cs.foldl (· + ·) 0).isZero = false ∨ 2 ≤ l.length) :
    (collect (cs.map num ++ l.map fun t => t.2.term t.1)).isSum := by
  have symbolic : ∀ e ∈ l.map fun t => t.2.term t.1, e.toScalar? = none := by
    intro e mem
    obtain ⟨t, inside, rfl⟩ := mem_map.mp mem
    exact (toScalar?_ofFactors (terms t inside).1.proper).1
  have summands : ∀ e ∈ cs.map num ++ l.map fun t => t.2.term t.1, IsSummand M e := by
    intro e mem
    rcases mem_append.mp mem with own | own
    · obtain ⟨c, inside, rfl⟩ := mem_map.mp own
      exact .num (finite c inside)
    · obtain ⟨t, inside, rfl⟩ := mem_map.mp own
      exact .term (terms t inside).1 (terms t inside).2
  have number : numberOf (cs.map num ++ l.map fun t => t.2.term t.1) = cs.foldl (· + ·) 0 := by
    have symbols : (l.map fun t => t.2.term t.1).filterMap toScalar? = [] := filterMap_eq_nil_iff.mpr symbolic
    have all : (cs.map num).filterMap toScalar? = cs := by
      rw [filterMap_map]
      exact filterMap_some
    rw [numberOf, filterMap_append, symbols, all, append_nil]
  have rests : (cs.map num ++ l.map fun t => t.2.term t.1).filter (·.toScalar?.isNone) = l.map fun t => t.2.term t.1 := by
    have numbers : (cs.map num).filter (·.toScalar?.isNone) = [] := by simp [toScalar?]
    rw [filter_append, numbers, nil_append, filter_eq_self]
    exact fun e mem => by rw [symbolic e mem]; rfl
  obtain ⟨k, -, collected, perm⟩ := collect_views summands (fun t mem => (terms t mem).1)
    (by rw [rests, map_splitNumber_terms fun t mem => (terms t mem).1])
  have perm := perm distinct fun t mem => (terms t mem).2
  rw [collected, number]
  refine isSum_ofTerms ?_ ?_
  · intro empty
    rw [map_eq_nil_iff.mp empty] at perm
    exact listed (nil_perm.mp perm)
  · simpa [perm.length_eq] using several

theorem openSums_of_terms (plain : ∀ e ∈ es, e.isSum = false) : openSums es = es := by
  have sums : es.filter (·.isSum) = [] := by simpa using plain
  have all : es.filter (!·.isSum) = es := by simpa using plain
  rw [openSums, sums, all, flatMap_nil, append_nil]

theorem addAll_several (several : 2 ≤ es.length) (nonzero : ∀ c, num c ∈ es → c ≠ 0)
    (plain : ∀ e ∈ es, e.isSum = false) : addAll es = collect es := by
  unfold addAll
  generalize filtered : es.filter _ = fs
  obtain rfl : fs = es := by
    rw [← filtered, filter_eq_self]
    intro e mem
    split
    · rename_i c
      simpa using nonzero c mem
    · rfl
  obtain _ | ⟨e, _ | ⟨f, fs⟩⟩ := fs
  · simp at several
  · simp at several
  · simp only [openSums_of_terms plain]

theorem isSum_addAll (finite : c.isFinite)
    (terms : ∀ t ∈ l, Weighted M t ∧ t.1.isZero = false) (distinct : (l.map Prod.snd).Nodup) (listed : l ≠ [])
    (several : c.isZero = false ∨ 2 ≤ l.length) : (addAll (num c :: l.map fun t => t.2.term t.1)).isSum := by
  have symbolic : ∀ e ∈ l.map fun t => t.2.term t.1, e.toScalar? = none ∧ e.isSum = false := by
    intro e mem
    obtain ⟨t, inside, rfl⟩ := mem_map.mp mem
    exact toScalar?_ofFactors (terms t inside).1.proper
  have number {d : Scalar} (mem : num d ∈ l.map fun t => t.2.term t.1) : False := by
    cases (symbolic _ mem).1
  by_cases zero : c = 0
  · subst zero
    have several : 2 ≤ l.length := several.resolve_left (by decide)
    have dropped : addAll (num 0 :: l.map fun t => t.2.term t.1) = addAll (l.map fun t => t.2.term t.1) := rfl
    rw [dropped, addAll_several (by simpa using several) (fun d mem => (number mem).elim)
      fun e mem => (symbolic e mem).2]
    exact isSum_collect [] (by simp) terms distinct listed (.inr several)
  · have length : 0 < l.length := length_pos_iff.mpr listed
    rw [addAll_several (by simpa using Nat.succ_le_of_lt length)]
    · have start : (List.foldl (· + ·) 0 [c]).isZero = false ∨ 2 ≤ l.length := by
        exact several.imp_left (isZero_zero_add finite)
      exact isSum_collect [c] (by simpa using finite) terms distinct listed start
    · intro d mem
      rcases mem_cons.mp mem with equal | inside
      · cases equal
        exact zero
      · exact (number inside).elim
    · exact forall_mem_cons.mpr ⟨rfl, fun e mem => (symbolic e mem).2⟩

theorem isSum_distribute (finite : c.isFinite) (nonzero : c.isZero = false)
    (expanded : Expanded M (sum d ts)) : Expanded M (distribute c d ts) ∧ (distribute c d ts).isSum := by
  obtain ⟨b, l, summed, equal⟩ := expanded
  obtain ⟨rfl, rfl, listed, several⟩ : d = b ∧ ts = l.map (fun t => t.2.term t.1) ∧ l ≠ [] ∧
      (b.isZero = false ∨ 2 ≤ l.length) := by
    obtain _ | ⟨t, _ | ⟨u, l⟩⟩ := l
    · cases equal
    · rw [map_singleton, ofTerms] at equal
      split at equal
      · have other := (toScalar?_ofFactors (c := t.1) (summed.terms t (by simp)).1.proper).2
        rw [← Monomial.term, ← equal] at other
        cases other
      · rename_i other
        cases equal
        refine ⟨rfl, rfl, by simp, .inl ?_⟩
        by_contra zero
        exact other (by rw [summed.vanishes (by simp) (by simpa using zero)]; rfl)
    · cases equal
      exact ⟨rfl, rfl, by simp, .inr (by simp)⟩
  obtain ⟨k, terms, monomials, scaled⟩ := exists_scaled finite nonzero summed.terms
  have same : k.length = l.length := by simpa using congrArg List.length monomials
  rw [distribute, scaled]
  constructor
  · refine expanded_addAll (forall_mem_cons.mpr ⟨.num (isFinite_mul finite summed.finite), ?_⟩)
    intro e mem
    obtain ⟨t, inside, rfl⟩ := mem_map.mp mem
    exact (IsSummand.term (terms t inside).1 (terms t inside).2).expanded
  · refine isSum_addAll (isFinite_mul finite summed.finite) terms (monomials ▸ summed.distinct) ?_ ?_
    · exact ne_nil_of_length_pos (same ▸ length_pos_iff.mpr listed)
    · rw [same]
      exact several.imp_left (isZero_mul ⟨finite, summed.finite⟩ nonzero)

/-! ### Expanded expressions stay as they are -/

theorem everywhere_pow {b e : Coeff} (base : everywhere rule b = b) (exponent : everywhere rule e = e) :
    everywhere rule (pow b e) = rule (pow b e) := by
  rw [everywhere, base, exponent, same_self, same_self]
  rfl

theorem everywhere_prod (c : Scalar) (factors : ∀ f ∈ fs, everywhere rule f = f) :
    everywhere rule (prod c fs) = rule (prod c fs) := by
  rw [everywhere, everywhereList_eq_map, map_congr_left factors, map_id', cmpList_self]
  rfl

theorem everywhere_sum (c : Scalar) (terms : ∀ t ∈ ts, everywhere rule t = t) :
    everywhere rule (sum c ts) = rule (sum c ts) := by
  rw [everywhere, everywhereList_eq_map, map_congr_left terms, map_id', cmpList_self]
  rfl

/-- A rule that leaves inputs, their powers, products of those, and sums as they are. -/
structure Spares (rule : Coeff → Coeff) : Prop where
  num (c : Scalar) : rule (num c) = num c
  sym (s : String) : rule (sym s) = sym s
  app (f : String) (args : List Coeff) : rule (app f args) = app f args
  power (v : Variable) (n : ℤ) : rule (pow v.read (ofInt n)) = pow v.read (ofInt n)
  prod (c : Scalar) (l : List (Variable × ℤ)) : rule (prod c (l.map factor)) = prod c (l.map factor)
  sum (c : Scalar) (ts : List Coeff) : rule (sum c ts) = sum c ts

theorem spares_expandMultinomial : Spares expandMultinomial where
  num _ := rfl
  sym _ := rfl
  app _ _ := rfl
  power v n := by rcases v with s | ⟨s, _ | i⟩ <;> rfl
  prod _ _ := rfl
  sum _ _ := rfl

theorem spares_expandBase : Spares expandBase where
  num _ := rfl
  sym _ := rfl
  app _ _ := rfl
  power v n := by rcases v with s | ⟨s, _ | i⟩ <;> rfl
  prod _ _ := rfl
  sum _ _ := rfl

theorem spares_expandExponent : Spares expandExponent where
  num _ := rfl
  sym _ := rfl
  app _ _ := rfl
  power v n := by rcases v with s | ⟨s, _ | i⟩ <;> rfl
  prod _ _ := rfl
  sum _ _ := rfl

theorem holdsSum_factor (p : Variable × ℤ) : holdsSum (factor p) = false := by
  obtain ⟨v, n⟩ := p
  unfold factor wholePower
  split <;> rcases v with s | ⟨s, _ | i⟩ <;> simp [Variable.read, holdsSum]

theorem spares_expandProduct : Spares expandProduct where
  num _ := rfl
  sym _ := rfl
  app _ _ := rfl
  power v n := by rcases v with s | ⟨s, _ | i⟩ <;> rfl
  prod c l := by
    have sums : (l.map factor).any holdsSum = false := by
      rw [any_map, any_eq_false]
      exact fun p _ => by simp [holdsSum_factor]
    simp [expandProduct, sums]
  sum _ _ := rfl

section

variable (spares : Spares rule)
include spares

theorem everywhere_read (v : Variable) : everywhere rule v.read = v.read := by
  have number (c : Scalar) : everywhere rule (num c) = num c := by rw [everywhere, spares.num]
  have name (s : String) : everywhere rule (sym s) = sym s := by rw [everywhere, spares.sym]
  rcases v with s | ⟨s, _ | i⟩
  · exact name s
  · rw [Variable.read, everywhere, everywhereList, everywhereList, name, spares.app]
  · rw [Variable.read, everywhere, everywhereList, everywhereList, everywhereList, name, ofInt, number, spares.app]

theorem everywhere_factor (p : Variable × ℤ) : everywhere rule (factor p) = factor p := by
  unfold factor wholePower
  split
  · exact everywhere_read spares p.1
  · rw [everywhere_pow (everywhere_read spares p.1) (by rw [ofInt, everywhere, spares.num]), spares.power]

theorem everywhere_factors (c : Scalar) (l : List (Variable × ℤ)) :
    everywhere rule (prod c (l.map factor)) = prod c (l.map factor) := by
  rw [everywhere_prod c, spares.prod]
  intro f mem
  obtain ⟨p, -, rfl⟩ := mem_map.mp mem
  exact everywhere_factor spares p

theorem everywhere_ofFactors (c : Scalar) (l : List (Variable × ℤ)) :
    everywhere rule (ofFactors c (l.map factor)) = ofFactors c (l.map factor) := by
  obtain _ | ⟨p, _ | ⟨q, l⟩⟩ := l
  · rw [map_nil, ofFactors, everywhere, spares.num]
  · rw [map_singleton, ofFactors_single (factor_isTerm p).1]
    split
    · exact everywhere_factor spares p
    · exact everywhere_factors spares c [p]
  · rw [ofFactors_several c (by simp)]
    exact everywhere_factors spares c _

variable {e : Coeff}

theorem IsSummand.everywhere (summand : IsSummand M e) : everywhere rule e = e := by
  cases summand with
  | num => rw [Coeff.everywhere, spares.num]
  | term => exact everywhere_ofFactors spares _ _

theorem Expanded.everywhere (expanded : Expanded M e) : everywhere rule e = e := by
  rcases expanded.cases with summand | ⟨c, ts, rfl, -, -, terms⟩
  · exact summand.everywhere spares
  · rw [everywhere_sum c, spares.sum]
    intro t mem
    obtain ⟨w, weighted, nonzero, rfl⟩ := terms t mem
    exact (IsSummand.term weighted nonzero).everywhere spares

end

section

variable {e : Coeff} (kept : ∀ {rule : Coeff → Coeff}, Spares rule → everywhere rule e = e)
include kept

/-- What is left of an expansion once the rules for products and powers have given what they leave as it is. -/
theorem settle_spared : settle roundLimit (everywhere expandExponent (everywhere expandBase e)) = e := by
  rw [kept spares_expandBase, kept spares_expandExponent, roundLimit, settle, kept spares_expandMultinomial,
    kept spares_expandProduct, same_self]
  rfl

theorem expand_spared : expand e = e := by
  unfold Coeff.expand
  split
  · rfl
  · rfl
  · rfl
  · rw [kept spares_expandMultinomial, kept spares_expandProduct, settle_spared kept]

end

theorem Expanded.expand {e : Coeff} (expanded : Expanded M e) : expand e = e :=
  expand_spared fun spares => expanded.everywhere spares

/-! ### Multiplying out -/

theorem IsSummand.finite (summand : IsSummand M (Coeff.num c)) : c.isFinite := by
  have listed : ∀ e ∈ [Coeff.num c], IsSummand M e := by simpa using summand
  exact finite_toScalar? listed c (by simp [toScalar?])

section

variable (add : ∀ m n, E m → E n → E (m + n))
include add

theorem isSummand_mulAll (summands : ∀ e ∈ es, IsSummand (Raised E) e) : IsSummand (Raised E) (mulAll es) :=
  (isSummand_productStep kind_finite add 39 summands fun _ mem => (summands _ mem).finite).1

theorem isSummand_expandSums {fuel : Nat} {sums : List Coeff} (expanded : ∀ s ∈ sums, Expanded (Raised E) s) :
    ∀ t ∈ expandSums fuel sums, IsSummand (Raised E) t := by
  induction fuel generalizing sums with
  | zero => simp [expandSums]
  | succ fuel ih =>
    unfold expandSums
    split
    · simpa using .num rfl
    · exact (expanded _ (by simp)).summands
    · refine Expanded.summands (expanded_addAll fun e mem => ?_)
      obtain ⟨a, left, inside⟩ := mem_flatMap.mp mem
      obtain ⟨b, right, rfl⟩ := mem_map.mp inside
      have first := ih (fun s mem => expanded s (mem_of_mem_take mem)) a left
      have second := ih (fun s mem => expanded s (mem_of_mem_drop mem)) b right
      exact (isSummand_mulAll add (by simpa using ⟨first, second⟩)).expanded

/-- A product of summands and of expanded sums is multiplied out into an expanded expression. -/
theorem expanded_multiplyOut (finite : c.isFinite)
    (factors : ∀ f ∈ fs, if f.isSum then Expanded (Raised E) f else IsSummand (Raised E) f) (isSum : ∃ f ∈ fs, f.isSum) :
    Expanded (Raised E) (multiplyOut (prod c fs)) := by
  have nonempty : (fs.filter (·.isSum)).isEmpty = false := by simpa using isSum
  have plain : IsSummand (Raised E) (mulAll (num c :: fs.filter (!·.isSum))) := by
    refine isSummand_mulAll add (forall_mem_cons.mpr ⟨.num finite, fun f mem => ?_⟩)
    obtain ⟨inside, other⟩ := mem_filter.mp mem
    exact (if_neg (by simpa using other)).mp (factors f inside)
  have sums : ∀ s ∈ fs.filter (·.isSum), Expanded (Raised E) s := by
    intro s mem
    obtain ⟨inside, own⟩ := mem_filter.mp mem
    exact (if_pos own).mp (factors s inside)
  rw [multiplyOut]
  simp only [nonempty, Bool.false_eq_true, if_false]
  refine expanded_addAll fun e mem => ?_
  obtain ⟨t, inside, rfl⟩ := mem_map.mp mem
  exact (isSummand_mulAll add (by simpa using ⟨plain, isSummand_expandSums add sums t inside⟩)).expanded

end

theorem isSum_factor (p : Variable × ℤ) : (factor p).isSum = false := by
  have term := (factor_isTerm p).1
  generalize factor p = f at term
  cases f <;> first | rfl | cases term

end Coeff

end Bladewright
