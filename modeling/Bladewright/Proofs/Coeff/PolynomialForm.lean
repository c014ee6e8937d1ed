import Bladewright.Proofs.Coeff.ExpandedProduct

/-!
Expanded expressions with positive exponents as polynomials in the host inputs. A product of powers is a monomial of
the polynomial ring, and different products are different monomials (`Monomial.exponents_injective`).
-/
namespace Bladewright

open List

open MvPolynomial (eval)

theorem sum_map_of_distinct {α κ M : Type} [AddCommMonoid M] {l : List α} {key : α → κ} (distinct : (l.map key).Nodup)
    {f : α → M} {x : α} (mem : x ∈ l) (others : ∀ y ∈ l, key y ≠ key x → f y = 0) : (l.map f).sum = f x := by
  classical
  have single : ∀ y, y ≠ x → y ∈ l → f y = 0 := fun y other inside =>
    others y inside fun same => other (inj_on_of_nodup_map distinct inside mem same)
  rw [sum_map_eq_nsmul_single x f single, count_eq_one_of_mem distinct.of_map mem, one_smul]

namespace Monomial

open Coeff (Raised)

/-- The exponents of the host inputs. -/
noncomputable def exponents (m : Monomial) : Variable →₀ ℕ :=
  (m.powers.map fun p => Finsupp.single p.1 p.2.toNat).sum

theorem exponents_apply (m : Monomial) (v : Variable) :
    m.exponents v = (m.powers.map fun p => Finsupp.single p.1 p.2.toNat v).sum := by
  rw [exponents, ← Finsupp.applyAddHom_apply, map_list_sum, map_map]
  rfl

variable {m n : Monomial}

theorem exponents_of_mem {p : Variable × ℤ} (mem : p ∈ m.powers) : m.exponents p.1 = p.2.toNat := by
  rw [exponents_apply, sum_map_of_distinct m.distinct mem fun q _ other => Finsupp.single_eq_of_ne other.symm]
  exact Finsupp.single_eq_same

theorem exists_of_exponents {v : Variable} (nonzero : m.exponents v ≠ 0) : ∃ n, (v, n) ∈ m.powers := by
  by_contra absent
  refine nonzero ?_
  rw [exponents_apply]
  refine sum_eq_zero fun n mem => ?_
  obtain ⟨p, inside, rfl⟩ := mem_map.mp mem
  refine Finsupp.single_eq_of_ne ?_
  rintro rfl
  exact absent ⟨p.2, inside⟩

theorem exponents_ne_zero (raised : Raised (0 < ·) m) (proper : m.powers ≠ []) : m.exponents ≠ 0 := by
  obtain ⟨p, mem⟩ := exists_mem_of_ne_nil _ proper
  intro bare
  have zero := exponents_of_mem mem
  have positive := raised p mem
  rw [bare, Finsupp.zero_apply] at zero
  omega

theorem subset_of_exponents (left : Raised (0 < ·) m) (right : Raised (0 < ·) n)
    (same : m.exponents = n.exponents) : m.powers ⊆ n.powers := by
  rintro ⟨v, k⟩ mem
  have positive := left _ mem
  have here : m.exponents v = k.toNat := exponents_of_mem mem
  obtain ⟨k', mem'⟩ := exists_of_exponents (m := n) (v := v) (by rw [← same]; omega)
  have positive' := right _ mem'
  have there : n.exponents v = k'.toNat := exponents_of_mem mem'
  rw [same, there] at here
  obtain rfl : k' = k := by omega
  exact mem'

theorem exponents_injective (left : Raised (0 < ·) m) (right : Raised (0 < ·) n)
    (same : m.exponents = n.exponents) : m = n := by
  have perm : m.powers.Perm n.powers :=
    (perm_ext_iff_of_nodup m.distinct.of_map n.distinct.of_map).mpr fun _ =>
      ⟨fun mem => subset_of_exponents left right same mem,
        fun mem => subset_of_exponents right left same.symm mem⟩
  -- both are sorted, and the order tells different powers apart
  refine Monomial.ext (perm.eq_of_pairwise (fun p q _ _ first second => ?_) m.sorted n.sorted)
  have turned : compareFactor q p = (compareFactor p q).swap := Std.OrientedCmp.eq_swap
  rw [turned] at second
  have equal : compareFactor p q = .eq → p = q := Std.LawfulEqCmp.eq_of_compare
  refine equal ?_
  cases found : compareFactor p q
  all_goals simp [found] at first second ⊢

theorem eval_exponents (point : Variable → ℚ) (l : List (Variable × ℤ)) :
    ((l.map fun p => Finsupp.single p.1 p.2.toNat).sum.prod fun v n => point v ^ n) =
      (l.map fun p => point p.1 ^ p.2.toNat).prod := by
  induction l with
  | nil => exact Finsupp.prod_zero_index
  | cons p l ih =>
    have single : ((Finsupp.single p.1 p.2.toNat).prod fun v n => point v ^ n) = point p.1 ^ p.2.toNat :=
      Finsupp.prod_single_index (pow_zero _)
    rw [map_cons, sum_cons, Finsupp.prod_add_index' (fun v => pow_zero (point v)) fun v => pow_add (point v),
      single, ih, map_cons, prod_cons]

end Monomial

namespace Coeff

open Monomial

variable {c : Scalar} {e : Coeff} {r : Reading} {point : Variable → ℚ}

/-! ### What expanded expressions represent -/

theorem means_read (v : Variable) : Means (.ofPoint point) v.read (point v) := by
  cases v with
  | scalar source => exact ⟨.sym rfl, rfl⟩
  | component source index =>
    cases index with
    | none => exact ⟨.only source, rfl⟩
    | some i => exact ⟨.component source i, rfl⟩

theorem means_factor {p : Variable × ℤ} (positive : 0 < p.2) :
    Means (.ofPoint point) (factor p) (point p.1 ^ p.2.toNat) := by
  have whole : (p.2.toNat : ℤ) = p.2 := Int.toNat_of_nonneg positive.le
  unfold factor wholePower
  split
  · rename_i one
    simpa [one] using means_read p.1
  · rw [← zpow_natCast, whole]
    exact means_pow (means_read p.1) fun negative => absurd negative (by omega)

variable {m : Monomial} {p : Polynomials} {a b : Coeff}

theorem means_term (point : Variable → ℚ) (raised : Raised (0 < ·) m) (q : ℚ) :
    Means (.ofPoint point) (m.term (.exact q)) (eval point (MvPolynomial.monomial m.exponents q)) := by
  have factors : ∀ p ∈ m.powers, Means (.ofPoint point) (factor p) (point p.1 ^ p.2.toNat) :=
    fun p mem => means_factor (raised p mem)
  have values : product (.ofPoint point) (m.powers.map factor) = (m.powers.map fun p => point p.1 ^ p.2.toNat).prod := by
    rw [product, map_map]
    exact congrArg List.prod (map_congr_left fun p mem => (factors p mem).value_eq)
  rw [MvPolynomial.eval_monomial, Monomial.exponents, eval_exponents, ← values]
  exact means_ofFactors q (forall_mem_map.mpr fun p mem => (factors p mem).defined)

theorem Defined.of_ofTerms {ts : List Coeff} (defined : Defined r (ofTerms c ts)) : c.IsExact ∧ AllDefined r ts := by
  unfold ofTerms at defined
  split at defined
  · exact ⟨defined.of_num, allDefined_nil⟩
  · split at defined
    · rename_i zero
      exact ⟨eq_of_beq zero ▸ ⟨0, rfl⟩, allDefined_cons.mpr ⟨defined, allDefined_nil⟩⟩
    · cases defined with
      | sum q terms => exact ⟨⟨q, rfl⟩, terms⟩
  · cases defined with
    | sum q terms => exact ⟨⟨q, rfl⟩, terms⟩

theorem Defined.of_term (defined : Defined r (m.term c)) : c.IsExact := by
  unfold Monomial.term at defined
  generalize m.powers = l at defined
  obtain _ | ⟨p, _ | ⟨q, l⟩⟩ := l
  · exact defined.of_num
  · rw [map_singleton, ofFactors_single (factor_isTerm p).1] at defined
    split at defined
    · rename_i one
      exact Scalar.eq_one_of_isOne one ▸ ⟨1, rfl⟩
    · cases defined with
      | prod q => exact ⟨q, rfl⟩
  · rw [ofFactors_several c (by simp)] at defined
    cases defined with
    | prod q => exact ⟨q, rfl⟩

/-- An expanded expression with positive exponents. -/
abbrev IsPolynomial (e : Coeff) : Prop := Expanded (Raised (0 < ·)) e

theorem coeff_sum_monomials {l : List (Scalar × Monomial)} (raised : ∀ t ∈ l, Raised (0 < ·) t.2)
    (distinct : (l.map Prod.snd).Nodup) {t : Scalar × Monomial} (mem : t ∈ l) :
    MvPolynomial.coeff t.2.exponents (l.map fun t => MvPolynomial.monomial t.2.exponents t.1.rational).sum = t.1.rational := by
  rw [← MvPolynomial.coeffAddMonoidHom_apply, map_list_sum, map_map,
    sum_map_of_distinct distinct mem fun y inside other => ?_]
  · exact (MvPolynomial.coeff_monomial _ _ _).trans (if_pos rfl)
  · exact (MvPolynomial.coeff_monomial _ _ _).trans
      (if_neg fun same => other (exponents_injective (raised y inside) (raised t mem) same))

/-- An expanded expression that has a value anywhere has the values of a polynomial, which is zero only if the
expression is the number zero. -/
theorem IsPolynomial.exists_polynomial (expanded : IsPolynomial e) (defined : Defined r e) :
    ∃ p : Polynomials, (∀ point, Means (.ofPoint point) e (eval point p)) ∧ (p = 0 → e = 0) := by
  obtain ⟨c, l, ⟨-, -, terms, distinct⟩, rfl⟩ := expanded
  obtain ⟨number, each⟩ := defined.of_ofTerms
  have raised : ∀ t ∈ l, Raised (0 < ·) t.2 := fun t mem => (terms t mem).1.kind
  have exacts : ∀ t ∈ l, t.1.IsExact := fun t mem => (each _ (mem_map_of_mem mem)).of_term
  refine ⟨MvPolynomial.C c.rational + (l.map fun t => MvPolynomial.monomial t.2.exponents t.1.rational).sum, fun point => ?_, fun zero => ?_⟩
  · have values : ∀ t ∈ l, Means (.ofPoint point) (t.2.term t.1) (eval point (MvPolynomial.monomial t.2.exponents t.1.rational)) :=
      fun t mem => by
        have means := means_term point (raised t mem) t.1.rational
        rwa [← (exacts t mem).eq] at means
    have sum : total (.ofPoint point) (l.map fun t => t.2.term t.1) =
        eval point (l.map fun t => MvPolynomial.monomial t.2.exponents t.1.rational).sum := by
      rw [total, map_list_sum, map_map, map_map]
      exact congrArg List.sum (map_congr_left fun t mem => (values t mem).value_eq)
    have means := means_ofTerms (r := .ofPoint point) c.rational
      (forall_mem_map.mpr fun t mem => (values t mem).defined)
    rwa [← number.eq, sum, ← MvPolynomial.eval_C (f := point) c.rational, ← map_add] at means
  · -- the coefficient of each term would be zero
    have empty : l = [] := by
      refine eq_nil_iff_forall_not_mem.mpr fun t mem => ?_
      have coefficient := coeff_sum_monomials raised distinct mem
      have proper : 0 ≠ t.2.exponents := (exponents_ne_zero (raised t mem) (terms t mem).1.proper).symm
      have whole := congrArg (MvPolynomial.coeff t.2.exponents) zero
      rw [MvPolynomial.coeff_add, MvPolynomial.coeff_C, if_neg proper, zero_add, coefficient, MvPolynomial.coeff_zero] at whole
      have nonzero := (terms t mem).2
      rw [(exacts t mem).eq, whole] at nonzero
      cases nonzero
    subst empty
    rw [map_nil, sum_nil, add_zero, MvPolynomial.C_eq_zero] at zero
    rw [number.eq, zero]
    rfl

theorem eq_zero_of_algebraMap (zero : algebraMap Polynomials Functions p = 0) : p = 0 :=
  (map_eq_zero_iff _ (IsFractionRing.injective Polynomials Functions)).mp zero

/-- An expanded expression that represents a rational function has the values of a polynomial at all points, and it is
the number zero if and only if the polynomial is. -/
theorem IsPolynomial.represented (expanded : IsPolynomial e) {f : Functions} (represents : Represents e f) :
    ∃ p : Polynomials, f = algebraMap Polynomials Functions p ∧ (∀ point, Means (.ofPoint point) e (eval point p)) ∧
      (e = 0 ↔ p = 0) := by
  obtain ⟨point, -, defined⟩ := represents_zero.exists_point represents
  obtain ⟨p, means, zero⟩ := expanded.exists_polynomial defined
  have polynomial : Represents e (algebraMap Polynomials Functions p) := by
    refine ⟨p, 1, one_ne_zero, by rw [quotient, map_one, div_one], fun point _ => ?_⟩
    simpa using means point
  refine ⟨p, represents.unique polynomial, means, ?_, zero⟩
  rintro rfl
  exact eq_zero_of_algebraMap (polynomial.unique represents_zero)

/-! ### Arithmetic -/

theorem isPolynomial_read (v : Variable) : IsPolynomial v.read :=
  (isSummand_factor (p := (v, 1)) one_ne_zero one_pos).expanded

theorem isPolynomial_one : IsPolynomial 1 := .num rfl

theorem IsPolynomial.add (left : IsPolynomial a) (right : IsPolynomial b) : IsPolynomial (add a b) :=
  Expanded.add left right

theorem IsPolynomial.mul (left : IsPolynomial a) (right : IsPolynomial b) : IsPolynomial (a * b) :=
  Expanded.expand_mul (fun _ _ => add_pos) (fun _ => id) left right

theorem IsPolynomial.neg (operand : IsPolynomial e) : IsPolynomial (neg e) := Expanded.neg (fun _ _ => add_pos) operand

theorem isZero_iff : e.isZero = true ↔ e = 0 := by
  constructor
  · intro zero
    cases e with
    | num c => exact congrArg num (eq_of_beq zero)
    | _ => cases zero
  · rintro rfl
    rfl

/-- Coefficients are seen to agree if and only if they represent the same polynomial. -/
theorem IsPolynomial.agrees_iff (left : IsPolynomial a) (right : IsPolynomial b) {q : Polynomials}
    (first : Represents a (algebraMap Polynomials Functions p))
    (second : Represents b (algebraMap Polynomials Functions q)) : agrees a b = true ↔ p = q := by
  have difference : IsPolynomial (Coeff.add a (Coeff.neg b)) := left.add right.neg
  obtain ⟨d, same, -, zero⟩ := difference.represented (first.add second.neg)
  rw [← sub_eq_add_neg, ← map_sub] at same
  rw [agrees, Expanded.expand difference, isZero_iff, zero,
    ← IsFractionRing.injective Polynomials Functions same, sub_eq_zero]

end Coeff

end Bladewright
