import Bladewright.Proofs.Coeff.EmitAnswers
import Bladewright.Proofs.Coeff.ExpandedForm

/-!
Products of expanded expressions. A product of several factors with a sum among them is split into numerator and
denominator, put together again and multiplied out; the square of a sum is multiplied out term by term.
-/
namespace Bladewright.Coeff

open List Scalar

variable {M : Monomial → Prop} {E : ℤ → Prop} {ι : Type}

/-! ### Fractions -/

variable {c d : Scalar} {base : ι → Coeff} {l : List (ι × ℤ)} {fs ts us : List Coeff} {a : Coeff}

theorem fractionParts_finite (proper : c.IsProper) :
    (∀ e ∈ (fractionParts (num c)).1, ∃ d : Scalar, d.IsProper ∧ e = num d) ∧
      ∀ e ∈ (fractionParts (num c)).2, ∃ d : Scalar, d.IsProper ∧ e = num d := by
  obtain ⟨finite, nonzero⟩ := proper
  cases c with
  | exact q =>
    have number {p : ℚ} (nonzero : p ≠ 0) : ∃ d : Scalar, d.IsProper ∧ num (.exact p) = num d :=
      ⟨.exact p, ⟨rfl, by simpa using nonzero⟩, rfl⟩
    have nonzero : q ≠ 0 := by simpa using nonzero
    unfold fractionParts
    simp only
    split
    · exact ⟨forall_mem_singleton.mpr (number nonzero), by simp⟩
    · constructor
      · split
        · simp
        · exact forall_mem_singleton.mpr (number (by simpa using nonzero))
      · exact forall_mem_singleton.mpr (number (by simp))
  | approx q => exact ⟨forall_mem_singleton.mpr ⟨_, ⟨finite, nonzero⟩, rfl⟩, by simp [fractionParts]⟩
  | _ => cases finite

theorem fractionParts_powers (bases : Bases base) (nonzero : ∀ p ∈ l, p.2 ≠ 0) :
    ((l.map (power base)).map fractionParts).flatMap (·.1) = (l.filter (0 < ·.2)).map (power base) ∧
      ((l.map (power base)).map fractionParts).flatMap (·.2) =
        ((l.filter (·.2 < 0)).map fun p => (p.1, -p.2)).map (power base) := by
  induction l with
  | nil => exact ⟨rfl, rfl⟩
  | cons p l ih =>
    rw [forall_mem_cons] at nonzero
    obtain ⟨above, below⟩ := ih nonzero.2
    have own : fractionParts (power base p) =
        if 0 < p.2 then ([power base p], []) else ([], [power base (p.1, -p.2)]) := by
      unfold power wholePower
      by_cases one : p.2 = 1
      · simp [one, fractionParts_bare (bases.bare p.1)]
      · rw [if_neg one, fractionParts_pow (bases.bare p.1) nonzero.1, wholePower]
    rw [map_cons, map_cons, flatMap_cons, flatMap_cons, above, below, own, filter_cons,
      filter_cons]
    rcases lt_or_gt_of_ne nonzero.1 with negative | positive
    · simp [negative, not_lt.mpr negative.le]
    · simp [positive, not_lt.mpr positive.le]

/-- The numerator and the denominator of a product of powers: positive exponents stand above the bar, the opposites of
negative ones below it. -/
theorem fraction_powers (bases : Bases base) (proper : c.IsProper)
    (order : fs.Perm (l.map (power base))) (nonzero : ∀ p ∈ l, p.2 ≠ 0) :
    ∃ ns ds, fraction (prod c fs) = (mulAll ns, mulAll ds) ∧ ((∀ e ∈ ns, e.isPart) ∧ ∀ e ∈ ds, e.isPart) ∧
      Parts Scalar.IsProper base ns (l.filter (0 < ·.2)) ∧
      Parts Scalar.IsProper base ds ((l.filter (·.2 < 0)).map fun p => (p.1, -p.2)) := by
  obtain ⟨k, rfl, perm⟩ := exists_of_perm_map order
  obtain ⟨above, below⟩ := fractionParts_powers bases fun p mem => nonzero p (perm.mem_iff.mp mem)
  obtain ⟨ns, ds, numbers, parts⟩ : ∃ ns ds : List Coeff, ((∀ e ∈ ns, ∃ d : Scalar, d.IsProper ∧ e = num d) ∧
      ∀ e ∈ ds, ∃ d : Scalar, d.IsProper ∧ e = num d) ∧ fraction (prod c (k.map (power base))) =
        (mulAll (ns ++ (k.filter (0 < ·.2)).map (power base)),
          mulAll (ds ++ ((k.filter (·.2 < 0)).map fun p => (p.1, -p.2)).map (power base))) := by
    unfold fraction multiplicands
    cases one : c.isOne with
    | true => exact ⟨[], [], by simp, by simp only [one, if_true, above, below, nil_append]⟩
    | false =>
      refine ⟨_, _, fractionParts_finite proper, ?_⟩
      simp only [one, Bool.false_eq_true, if_false, map_cons, flatMap_cons, above, below]
  have atoms {es : List Coeff} (numbers : ∀ e ∈ es, ∃ d : Scalar, d.IsProper ∧ e = num d) (l : List (ι × ℤ)) :
      ∀ e ∈ es ++ l.map (power base), e.isPart := by
    refine forall_mem_append.mpr ⟨fun e mem => ?_, fun e mem => ?_⟩
    · obtain ⟨d, -, rfl⟩ := numbers e mem
      rfl
    · obtain ⟨p, -, rfl⟩ := mem_map.mp mem
      exact bases.isPart p
  refine ⟨_, _, parts, ⟨atoms numbers.1 _, atoms numbers.2 _⟩, ?_, ?_⟩
  · exact (Parts.nums numbers.1).append (.map_power bases _) |>.listed (perm.filter _)
  · exact (Parts.nums numbers.2).append (.map_power bases _) |>.listed ((perm.filter _).map _)

/-! ### Products multiplied out -/

theorem inv_num (proper : c.IsProper) : ∃ d : Scalar, d.isFinite ∧ inv (num c) = num d :=
  operations_pow_finite 38 proper.1 (by decide) fun _ => proper.2

theorem expanded_expandProduct [DecidableEq ι] (add : ∀ m n, E m → E n → E (m + n)) (bases : Bases base)
    (proper : c.IsProper) (order : fs.Perm (l.map (power base)))
    (distinct : (l.map Prod.fst).Nodup) (positive : ∀ p ∈ l, 0 < p.2) (several : 2 ≤ l.length)
    (factors : ∀ p ∈ l, if (power base p).isSum then Expanded (Raised E) (power base p)
      else IsSummand (Raised E) (power base p)) (sums : ∃ p ∈ l, (power base p).isSum) :
    Expanded (Raised E) (expandProduct (prod c fs)) := by
  have nonzero : ∀ p ∈ l, p.2 ≠ 0 := fun p mem => (positive p mem).ne'
  have listed {gs : List Coeff} (order : gs.Perm (l.map (power base))) :
      (∀ f ∈ gs, if f.isSum then Expanded (Raised E) f else IsSummand (Raised E) f) ∧ (∃ f ∈ gs, f.isSum) ∧
        2 ≤ gs.length := by
    refine ⟨fun f mem => ?_, ?_, by simpa [order.length_eq] using several⟩
    · obtain ⟨p, inside, rfl⟩ := mem_map.mp (order.mem_iff.mp mem)
      exact factors p inside
    · obtain ⟨p, inside, isSum⟩ := sums
      exact ⟨_, order.mem_iff.mpr (mem_map_of_mem inside), isSum⟩
  have holds : fs.any holdsSum = true := by
    obtain ⟨f, mem, isSum⟩ := (listed order).2.1
    refine any_eq_true.mpr ⟨f, mem, ?_⟩
    cases f <;> first | rfl | cases isSum
  obtain ⟨ns, ds, parts, ⟨above, below⟩, numerator, denominator⟩ := fraction_powers bases proper order nonzero
  have all : l.filter (0 < ·.2) = l := filter_eq_self.mpr fun p mem => by simpa using positive p mem
  have negatives : l.filter (·.2 < 0) = [] := filter_eq_nil_iff.mpr fun p mem => by simpa using (positive p mem).le
  rw [all] at numerator
  rw [negatives] at denominator
  obtain ⟨d, hs, number, empty, lower⟩ := productStep_atoms bases 39 below denominator (by simp) (by simp)
  obtain rfl : hs = [] := by simpa using empty
  obtain ⟨b, gs, front, order, upper⟩ := productStep_atoms bases 39 above numerator distinct nonzero
  obtain ⟨inverse, finite, value⟩ := inv_num number
  rw [ofFactors_several b (listed order).2.2] at upper
  have upper : mulAll ns = prod b gs := upper
  have lower : mulAll ds = num d := lower
  have quotient : expandProduct (prod c fs) = multiplyOut (mulAll [prod b gs, num inverse]) := by
    simp only [expandProduct, holds, if_true, parts, upper, lower, value, isProd, isOne, Bool.false_eq_true, if_false]
    rfl
  rw [quotient]
  by_cases one : inverse.isOne
  · have same : mulAll [prod b gs, num inverse] = prod b gs := by
      show productStep _ _ = _
      rw [productStep, filter_cons_of_pos (by rfl), filter_cons_of_neg (by simpa [isOne] using one),
        filter_nil]
    rw [same]
    exact expanded_multiplyOut add front.1 (listed order).1 (listed order).2.1
  · have product : mulAll [prod b gs, num inverse] = multiply (operations 39) [prod b gs, num inverse] :=
      productStep_pair rfl (by simpa [isOne] using one) (.inl ⟨rfl, rfl⟩)
    have both : Parts (fun c => c.isFinite = true) base [prod b gs, num inverse] l := by
      simpa using (Parts.prod bases front.1 order).append (.num finite)
    obtain ⟨a, hs, known, order, result⟩ := multiply_distinct kind_finite bases 39 both distinct nonzero
    rw [product, result]
    split
    · exact .num known
    · rename_i nonzero
      rw [ofFactors_several a (listed order).2.2]
      exact expanded_multiplyOut add known (listed order).1 (listed order).2.1

/-! ### Bases -/

theorem isBare_of_expanded (expanded : Expanded M (sum c ts)) : (sum c ts).isBare := by
  have terms : ∀ t ∈ ts, t ≠ const .imaginary ∧ ∀ d, t ≠ prod d [const .imaginary] := by
    rcases expanded.cases with summand | ⟨d, us, equal, -, -, terms⟩
    · cases summand.isSum
    · cases equal
      intro t mem
      obtain ⟨w, weighted, -, rfl⟩ := terms t mem
      have symbolic := isNumeric_ofFactors (c := w.1) weighted.proper
      rw [← Monomial.term] at symbolic
      constructor
      · intro equal
        rw [equal] at symbolic
        simp [isNumeric] at symbolic
      · intro d equal
        rw [equal] at symbolic
        simp [isNumeric] at symbolic
  show (complexParts? (sum c ts)).isNone = true
  unfold complexParts?
  split
  · rename_i equal
    cases equal
    exact absurd rfl (terms _ (by simp)).1
  · rename_i equal
    cases equal
    exact absurd rfl ((terms _ (mem_singleton_self _)).2 _)
  · rfl

def beside (a : Coeff) (i : Option Variable) : Coeff := i.elim a Variable.read

theorem same_sum_read (c : Scalar) (ts : List Coeff) (v : Variable) : same (sum c ts) v.read = false := by
  have ranks : cmp (sum c ts) v.read = cmpRank (sum c ts) v.read := by
    rcases v with s | ⟨s, _ | i⟩ <;> rfl
  have rank : (sum c ts).rank.1 = 17 := rfl
  rw [same, ranks, cmpRank, rank_read, rank]
  split <;> rfl

theorem finite_of_expanded (expanded : Expanded M (sum c ts)) : c.isFinite := by
  rcases expanded.cases with summand | ⟨d, us, equal, -, finite, -⟩
  · cases summand.isSum
  · cases equal
    exact finite

theorem bases_beside (expanded : Expanded M (sum c ts)) : Bases (beside (sum c ts)) where
  bare i := by
    cases i with
    | none => exact isBare_of_expanded expanded
    | some v => exact v.isBare_read
  finite {i d us} equal := by
    cases i with
    | none =>
      cases equal
      exact finite_of_expanded expanded
    | some v => exact bases_read.finite equal
  apart i j := by
    cases i with
    | none =>
      cases j with
      | none => simpa [beside] using same_self (sum c ts)
      | some w => simpa [beside] using same_sum_read c ts w
    | some v =>
      cases j with
      | none =>
        rw [same_comm]
        simpa [beside] using same_sum_read c ts v
      | some w => simpa [beside] using bases_read.apart v w

theorem bases_single (expanded : Expanded M (sum c ts)) : Bases fun _ : Unit => sum c ts where
  bare _ := isBare_of_expanded expanded
  finite equal := by
    cases equal
    exact finite_of_expanded expanded
  apart i j := by simp [same_self]

def either (a b : Coeff) (i : Bool) : Coeff := if i then a else b

theorem bases_either (left : Expanded M (sum c ts)) (right : Expanded M (sum d us))
    (differ : same (sum c ts) (sum d us) = false) : Bases (either (sum c ts) (sum d us)) where
  bare i := by
    cases i with
    | true => exact isBare_of_expanded left
    | false => exact isBare_of_expanded right
  finite {i b vs} equal := by
    cases i with
    | true =>
      cases equal
      exact finite_of_expanded left
    | false =>
      cases equal
      exact finite_of_expanded right
  apart i j := by
    cases i <;> cases j <;> simp [either, same_self, differ, same_comm (sum d us)]

/-! ### Products of expanded expressions -/

theorem expanded_ofFactors (proper : c.IsProper) (isSum : a.isSum) (expanded : Expanded M a) :
    Expanded M (ofFactors c [a]) := by
  cases a with
  | sum d ts =>
    rw [ofFactors, if_pos proper.1]
    split
    · exact expanded
    · exact (isSum_distribute proper.1 proper.2 expanded).1
  | _ => cases isSum

theorem expand_product (factors : ∀ f ∈ fs, Expanded M f)
    (expanded : Expanded M (expandProduct (prod c fs))) : expand (prod c fs) = expandProduct (prod c fs) := by
  have first : everywhere expandMultinomial (prod c fs) = prod c fs :=
    everywhere_prod c fun f mem => (factors f mem).everywhere spares_expandMultinomial
  have second : everywhere expandProduct (prod c fs) = expandProduct (prod c fs) :=
    everywhere_prod c fun f mem => (factors f mem).everywhere spares_expandProduct
  show settle roundLimit (everywhere expandExponent (everywhere expandBase
    (everywhere expandProduct (everywhere expandMultinomial (prod c fs))))) = _
  rw [first, second, settle_spared fun spares => expanded.everywhere spares]

section

variable (add : ∀ m n, E m → E n → E (m + n))
include add

variable {t : Coeff} {args : List Coeff}

theorem expanded_times_zero (depth : Nat) (summand : IsSummand (Raised E) t) :
    IsSummand (Raised E) ((operations (depth + 1)).times (ofInt 0) t) := by
  by_cases number : ∃ c, t = num c
  · obtain ⟨c, rfl⟩ := number
    exact .num (isFinite_mul rfl summand.finite)
  · rw [times_of_symbolic _ (by cases t <;> first | rfl | exact absurd ⟨_, rfl⟩ number)]
    have both : ∀ e ∈ [ofInt 0, t], IsSummand (Raised E) e := by simpa using ⟨.num rfl, summand⟩
    exact (isSummand_productStep kind_finite add depth both fun _ mem => (both _ mem).finite).1

/-- A product of expanded expressions is expanded, or a number beside powers. -/
theorem expanded_mulAll [DecidableEq ι] (bases : Bases base) (expanded : ∀ e ∈ args, Expanded (Raised E) e)
    (parts : Parts (fun c => c.isFinite = true) base args l) (distinct : (l.map Prod.fst).Nodup)
    (nonzero : ∀ p ∈ l, p.2 ≠ 0) : Expanded (Raised E) (mulAll args) ∨
      ∃ (c : Scalar) (fs : List Coeff), c.IsProper ∧ fs.Perm (l.map (power base)) ∧ mulAll args = ofFactors c fs := by
  show Expanded (Raised E) (productStep (operations 39) args) ∨ ∃ (c : Scalar) (fs : List Coeff), c.IsProper ∧
    fs.Perm (l.map (power base)) ∧ productStep (operations 39) args = ofFactors c fs
  rcases productStep_cases (operations 39) args with one | ⟨e, mem, single⟩ | ⟨c, ts, -, mem, zero⟩ | many
  · rw [one]
    exact .inl (.num rfl)
  · rw [single]
    exact .inl (expanded e mem)
  · rw [zero]
    refine .inl (expanded_addAll fun e inside => ?_)
    obtain ⟨t, part, rfl⟩ := mem_map.mp inside
    exact (expanded_times_zero add 38 ((expanded _ mem).summands t part)).expanded
  · obtain ⟨c, fs, number, order, product⟩ := multiply_distinct kind_finite bases 39 parts.filter_ones distinct
      nonzero
    rw [many, product]
    split
    · exact .inl (.num number)
    · rename_i proper
      exact .inr ⟨c, fs, ⟨number, by simpa using proper⟩, order, rfl⟩

theorem expanded_expand_mulAll [DecidableEq ι] (bases : Bases base) (expanded : ∀ e ∈ args, Expanded (Raised E) e)
    (parts : Parts (fun c => c.isFinite = true) base args l) (distinct : (l.map Prod.fst).Nodup)
    (positive : ∀ p ∈ l, 0 < p.2)
    (factors : ∀ p ∈ l, if (power base p).isSum then Expanded (Raised E) (power base p)
      else IsSummand (Raised E) (power base p)) (sums : ∃ p ∈ l, (power base p).isSum) :
    Expanded (Raised E) (expand (mulAll args)) := by
  rcases expanded_mulAll add bases expanded parts distinct fun p mem => (positive p mem).ne' with
    done | ⟨c, fs, proper, order, product⟩
  · rwa [done.expand]
  · have listed : ∀ f ∈ fs, if f.isSum then Expanded (Raised E) f else IsSummand (Raised E) f := by
      intro f mem
      obtain ⟨p, inside, rfl⟩ := mem_map.mp (order.mem_iff.mp mem)
      exact factors p inside
    have each : ∀ f ∈ fs, Expanded (Raised E) f := by
      intro f mem
      have own := listed f mem
      split at own
      · exact own
      · exact own.expanded
    rw [product]
    by_cases several : 2 ≤ l.length
    · have expanded := expanded_expandProduct add bases proper order distinct positive several factors sums
      rw [ofFactors_several c (by simpa [order.length_eq] using several), expand_product each expanded]
      exact expanded
    · obtain ⟨p, inside, isSum⟩ := sums
      obtain rfl : l = [p] := by
        obtain _ | ⟨q, _ | ⟨r, l⟩⟩ := l
        · cases inside
        · rw [mem_singleton.mp inside]
        · simp at several
      obtain rfl : fs = [power base p] := perm_singleton.mp order
      have expanded := expanded_ofFactors proper isSum (each _ (by simp))
      rwa [expanded.expand]

theorem isSummand_mul_nat {k : ℕ} (positive : 0 < k) {m : ℤ} (own : E m) : E (m * k) := by
  induction k with
  | zero => cases positive
  | succ k ih =>
    rw [Nat.cast_succ, mul_add, mul_one]
    rcases Nat.eq_zero_or_pos k with rfl | more
    · simpa using own
    · exact add _ _ (ih more) own

theorem expanded_expandPower (summands : ∀ t ∈ ts, IsSummand (Raised E) t) (n : Nat) :
    Expanded (Raised E) (expandPower ts n) := by
  refine expanded_addAll fun e mem => ?_
  obtain ⟨⟨ks, c⟩, -, rfl⟩ := mem_map.mp mem
  refine (isSummand_mulAll add (forall_mem_cons.mpr ⟨.num rfl, fun f inside => ?_⟩)).expanded
  obtain ⟨⟨t, k⟩, pair, found⟩ := mem_filterMap.mp inside
  by_cases zero : k = 0
  · simp [zero] at found
  · obtain rfl : raise t (num (.exact k)) = f := by simpa [zero] using found
    rw [natCast_num]
    refine (summands t (of_mem_zip pair).1).raise (fun m own => isSummand_mul_nat add (Nat.pos_of_ne_zero zero) own)
      (by simpa using zero) fun c _ negative => by omega

theorem expanded_expand_beside (positive : ∀ n, E n → 0 < n)
    (expanded : Expanded (Raised E) (sum c ts)) (summand : IsSummand (Raised E) t)
    (order : args.Perm [sum c ts, t]) : Expanded (Raised E) (expand (mulAll args)) := by
  obtain ⟨m, own, raised⟩ := summand.parts kind_finite fun d equal => by
    subst equal
    exact summand.finite
  have parts : Parts (fun c => c.isFinite = true) (beside (sum c ts)) args
      ((none, 1) :: m.powers.map fun p => (some p.1, p.2)) :=
    ((Parts.power (bases_beside expanded) (none, 1)).append (own.transport fun _ => rfl)).perm order
  refine expanded_expand_mulAll add (bases_beside expanded) ?_ parts ?_ ?_ ?_ ⟨(none, 1), by simp, rfl⟩
  · intro e mem
    rcases mem_pair.mp (order.mem_iff.mp mem) with rfl | rfl
    · exact expanded
    · exact summand.expanded
  · have keys := m.distinct.map (Option.some_injective Variable)
    simpa [Function.comp_def] using keys
  · refine forall_mem_cons.mpr ⟨one_pos, fun p mem => ?_⟩
    obtain ⟨q, inside, rfl⟩ := mem_map.mp mem
    exact positive q.2 (raised q inside)
  · refine forall_mem_cons.mpr ⟨expanded, fun p mem => ?_⟩
    obtain ⟨q, inside, rfl⟩ := mem_map.mp mem
    show if (factor q).isSum then Expanded (Raised E) (factor q) else IsSummand (Raised E) (factor q)
    rw [isSum_factor]
    exact isSummand_factor (m.nonzero q inside) (raised q inside)

theorem expanded_expand_sums (left : Expanded (Raised E) (sum c ts)) (right : Expanded (Raised E) (sum d us)) :
    Expanded (Raised E) (expand (mulAll [sum c ts, sum d us])) := by
  cases alike : same (sum d us) (sum c ts) with
  | false =>
    have bases := bases_either left right (by rw [same_comm, alike])
    have parts : Parts (fun c => c.isFinite = true) (either (sum c ts) (sum d us)) [sum c ts, sum d us]
        [(true, 1), (false, 1)] :=
      (Parts.power bases (true, 1)).append (.power bases (false, 1))
    refine expanded_expand_mulAll add bases (by simpa using ⟨left, right⟩) parts (by simp) (by simp) ?_
      ⟨(true, 1), by simp, rfl⟩
    exact forall_mem_cons.mpr ⟨left, forall_mem_singleton.mpr right⟩
  | true =>
    have square : mulAll [sum c ts, sum d us] = pow (sum c ts) (ofInt 2) := by
      have product : mulAll [sum c ts, sum d us] = multiply (operations 39) [sum c ts, sum d us] :=
        productStep_pair (a := sum c ts) (b := sum d us) rfl rfl (.inr ⟨rfl, rfl⟩)
      rw [product]
      exact multiply_alike 39 (bases_single left) (bases_single right) alike 1 1
    have expanded : Expanded (Raised E) (everywhere expandMultinomial (pow (sum c ts) (ofInt 2))) := by
      rw [everywhere_pow (left.everywhere spares_expandMultinomial) rfl]
      show Expanded (Raised E) (expandSumPower (sum c ts) 2)
      exact expanded_expandPower add left.summands 2
    rw [square]
    show Expanded (Raised E) (settle roundLimit (everywhere expandExponent (everywhere expandBase
      (everywhere expandProduct (everywhere expandMultinomial (pow (sum c ts) (ofInt 2)))))))
    rw [expanded.everywhere spares_expandProduct, settle_spared fun spares => expanded.everywhere spares]
    exact expanded

omit add in
theorem mul_eq_mulAll {b : Coeff} (other : ¬∃ c d, a = num c ∧ b = num d) : mul a b = mulAll [a, b] := by
  unfold mul
  split
  · exact absurd ⟨_, _, rfl, rfl⟩ other
  · rfl

theorem IsSummand.expand_mul {b : Coeff} (left : IsSummand (Raised E) a) (right : IsSummand (Raised E) b) :
    IsSummand (Raised E) (Coeff.expand (mul a b)) := by
  by_cases numbers : ∃ c d, a = Coeff.num c ∧ b = Coeff.num d
  · obtain ⟨c, d, rfl, rfl⟩ := numbers
    exact .num (isFinite_mul left.finite right.finite)
  · have product : IsSummand (Raised E) (mulAll [a, b]) := isSummand_mulAll add (by simpa using ⟨left, right⟩)
    rw [mul_eq_mulAll numbers, product.expanded.expand]
    exact product

theorem Expanded.expand_mul (positive : ∀ n, E n → 0 < n) {b : Coeff} (left : Expanded (Raised E) a)
    (right : Expanded (Raised E) b) : Expanded (Raised E) (Coeff.expand (mul a b)) := by
  rcases left.cases with first | ⟨c, ts, rfl, -⟩
  · rcases right.cases with second | ⟨d, us, rfl, -⟩
    · exact (first.expand_mul add second).expanded
    · rw [mul_eq_mulAll fun ⟨_, _, _, number⟩ => by cases number]
      exact expanded_expand_beside add positive right first (List.Perm.swap _ _ _)
  · rw [mul_eq_mulAll fun ⟨_, _, number, _⟩ => by cases number]
    rcases right.cases with second | ⟨d, us, rfl, -⟩
    · exact expanded_expand_beside add positive left second (List.Perm.refl _)
    · exact expanded_expand_sums add left right

theorem Expanded.neg {e : Coeff} (expanded : Expanded (Raised E) e) : Expanded (Raised E) (neg e) := by
  rcases expanded.cases with summand | ⟨c, ts, rfl, -⟩
  · cases e with
    | num c => exact .num (isFinite_neg summand.finite)
    | _ => exact (isSummand_mulAll add (by simpa using ⟨.num rfl, summand⟩)).expanded
  · have bases := bases_single expanded
    have number : (Scalar.ofInt (-1)).isFinite = true := rfl
    have parts : Parts (fun c => c.isFinite = true) (fun _ : Unit => sum c ts) [ofInt (-1), sum c ts] [((), 1)] :=
      (Parts.num number).append (.power bases ((), 1))
    have each : ∀ e ∈ [ofInt (-1), sum c ts], Expanded (Raised E) e := by simpa using ⟨.num number, expanded⟩
    show Expanded (Raised E) (mulAll [ofInt (-1), sum c ts])
    rcases expanded_mulAll add bases each parts (by simp) (by simp) with done | ⟨d, fs, proper, order, equal⟩
    · exact done
    · obtain rfl : fs = [sum c ts] := perm_singleton.mp order
      rw [equal]
      exact expanded_ofFactors proper rfl expanded

end

end Bladewright.Coeff
