import Bladewright.Proofs.Coeff.Meaning

/-!
Sums keep the value: opening nested sums, sorting, merging like terms, dropping terms that vanish and arranging the
rest do not change what a sum of expressions with values comes to.
-/
namespace Bladewright.Coeff

open List Scalar

variable {r : Reading}

/-! ### Sorting -/

section

variable {α : Type} (le : α → α → Bool)

theorem mergeBy_eq_merge (xs ys : List α) : mergeBy le xs ys = xs.merge ys le := by
  induction xs generalizing ys with
  | nil => simp [mergeBy]
  | cons x xs ih =>
    rw [mergeBy]
    induction ys with
    | nil => simp [mergeFrom]
    | cons y ys ih' => rw [mergeFrom, cons_merge_cons, ih, ih']

theorem sortWithin_eq_mergeSort {left : Nat} {es : List α} (enough : es.length ≤ left) :
    sortWithin le left es = es.mergeSort le := by
  induction left generalizing es with
  | zero =>
    obtain rfl : es = [] := length_eq_zero_iff.mp (Nat.le_zero.mp enough)
    simp [sortWithin]
  | succ left ih =>
    obtain _ | ⟨a, _ | ⟨b, es⟩⟩ := es
    · simp [sortWithin]
    · simp [sortWithin]
    · have several : ¬ (a :: b :: es).length ≤ 1 := by simp
      -- both halves are shorter than the whole
      rw [sortWithin, if_neg several, mergeBy_eq_merge, ih, ih, List.mergeSort,
        List.MergeSort.Internal.splitInTwo_fst, List.MergeSort.Internal.splitInTwo_snd]
      · rw [length_drop]
        simp only [length_cons] at enough ⊢
        omega
      · rw [length_take]
        simp only [length_cons] at enough ⊢
        omega

theorem sortBy_perm (es : List α) : (sortBy le es).Perm es := by
  rw [sortBy, sortWithin_eq_mergeSort le (le_refl _)]
  exact mergeSort_perm es le

end

theorem arrange_perm (es : List Coeff) : (arrange es).Perm es := sortBy_perm _ es

theorem sortTerms_perm (terms : List (Scalar × Coeff)) : (sortTerms terms).Perm terms := sortBy_perm _ terms

/-! ### Values of several expressions -/

def AllDefined (r : Reading) (es : List Coeff) : Prop := ∀ e ∈ es, Defined r e

@[simp] theorem allDefined_nil : AllDefined r [] := by simp [AllDefined]

variable {e : Coeff} {es fs : List Coeff} {ι : Type} {terms : List (Scalar × Coeff)} {f : ι → Coeff} {g : ι → ℚ}
  {is : List ι}

@[simp] theorem allDefined_cons : AllDefined r (e :: es) ↔ Defined r e ∧ AllDefined r es := by
  simp [AllDefined]

def total (r : Reading) (es : List Coeff) : ℚ := (es.map (value r)).sum

@[simp] theorem total_nil : total r [] = 0 := rfl

@[simp] theorem total_cons (e : Coeff) (es : List Coeff) : total r (e :: es) = value r e + total r es := by
  simp [total]

@[simp] theorem total_append (es fs : List Coeff) : total r (es ++ fs) = total r es + total r fs := by
  simp [total]

theorem total_perm (perm : es.Perm fs) : total r es = total r fs :=
  (perm.map _).sum_eq

theorem total_filter (p : Coeff → Bool) (es : List Coeff) :
    total r (es.filter p) + total r (es.filter (!p ·)) = total r es := by
  rw [← total_append]
  exact total_perm (filter_append_perm p es)

theorem total_filter_of_vanish {p : Coeff → Bool}
    (vanish : ∀ e ∈ es, p e = false → value r e = 0) : total r (es.filter p) = total r es := by
  induction es with
  | nil => rfl
  | cons e es ih =>
    have rest := ih fun e mem => vanish e (by simp [mem])
    cases dropped : p e with
    | true => rw [filter_cons_of_pos dropped, total_cons, rest, total_cons]
    | false =>
      rw [filter_cons_of_neg (by simp [dropped]), rest, total_cons, vanish e (by simp) dropped, zero_add]

theorem AllDefined.filter (defined : AllDefined r es) (p : Coeff → Bool) : AllDefined r (es.filter p) :=
  fun e mem => defined e (mem_of_mem_filter mem)

theorem AllDefined.perm (defined : AllDefined r es) (perm : fs.Perm es) : AllDefined r fs :=
  fun e mem => defined e (perm.mem_iff.mp mem)

theorem AllDefined.append (left : AllDefined r es) (right : AllDefined r fs) : AllDefined r (es ++ fs) :=
  fun e mem => (mem_append.mp mem).elim (left e) (right e)

theorem allDefined_map (means : ∀ i ∈ is, Means r (f i) (g i)) : AllDefined r (is.map f) := by
  intro e mem
  obtain ⟨i, inside, rfl⟩ := mem_map.mp mem
  exact (means i inside).defined

theorem total_map (means : ∀ i ∈ is, Means r (f i) (g i)) : total r (is.map f) = (is.map g).sum := by
  rw [total, map_map]
  exact congrArg List.sum (map_congr_left fun i inside => (means i inside).value_eq)

theorem AllDefined.flatMap_summands (defined : AllDefined r es) :
    AllDefined r (es.flatMap summands) ∧ total r (es.flatMap summands) = total r es := by
  constructor
  · intro t mem
    obtain ⟨e, inside, mem⟩ := mem_flatMap.mp mem
    exact (defined e inside).summands.1 t mem
  · induction es with
    | nil => rfl
    | cons e es ih =>
      rw [flatMap_cons, total_append, total_cons, ih fun e mem => defined e (by simp [mem])]
      rw [total, (defined e (by simp)).summands.2]

theorem AllDefined.openSums (defined : AllDefined r es) :
    AllDefined r (openSums es) ∧ total r (openSums es) = total r es := by
  obtain ⟨opened, same⟩ := (defined.filter (·.isSum)).flatMap_summands
  refine ⟨(defined.filter _).append opened, ?_⟩
  rw [Coeff.openSums, total_append, same, add_comm]
  exact total_filter (·.isSum) es

theorem foldl_add_exact {cs : List Scalar} (exactly : ∀ c ∈ cs, c.IsExact) (q : ℚ) :
    cs.foldl (· + ·) (.exact q) = .exact (q + (cs.map rational).sum) := by
  induction cs generalizing q with
  | nil => simp
  | cons c cs ih =>
    rw [foldl_cons, (exactly c (by simp)).eq, exact_add, ih fun c mem => exactly c (by simp [mem])]
    simp [add_assoc]

theorem AllDefined.toScalar? (defined : AllDefined r es) : ∀ c ∈ es.filterMap toScalar?, c.IsExact := by
  intro c mem
  obtain ⟨e, inside, found⟩ := mem_filterMap.mp mem
  cases e with
  | num d =>
    cases found
    exact (defined _ inside).of_num
  | _ => cases found

theorem sum_toScalar? (es : List Coeff) :
    ((es.filterMap Coeff.toScalar?).map rational).sum = total r (es.filter (·.toScalar?.isSome)) := by
  induction es with
  | nil => rfl
  | cons e es ih =>
    cases e with
    | num c => simp [Coeff.toScalar?, ih]
    | _ => exact ih

theorem AllDefined.numberOf_eq (defined : AllDefined r es) :
    numberOf es = .exact (total r (es.filter (·.toScalar?.isSome))) := by
  rw [numberOf, Scalar.zero_eq, foldl_add_exact defined.toScalar?, zero_add, sum_toScalar?]

/-! ### Terms as numbers and rests -/

/-- A term as an exact number and a rest that has a value. -/
def Weighed (r : Reading) (terms : List (Scalar × Coeff)) : Prop := ∀ t ∈ terms, t.1.IsExact ∧ Defined r t.2

def weight (r : Reading) (t : Scalar × Coeff) : ℚ := t.1.rational * value r t.2

def weightSum (r : Reading) (terms : List (Scalar × Coeff)) : ℚ := (terms.map (weight r)).sum

@[simp] theorem weightSum_cons (t : Scalar × Coeff) (terms : List (Scalar × Coeff)) :
    weightSum r (t :: terms) = weight r t + weightSum r terms := by
  simp [weightSum]

theorem AllDefined.splitNumber (defined : AllDefined r es) :
    Weighed r (es.map splitNumber) ∧ weightSum r (es.map splitNumber) = total r es := by
  constructor
  · intro t mem
    obtain ⟨e, inside, rfl⟩ := mem_map.mp mem
    obtain ⟨number, rest, -⟩ := (defined e inside).splitNumber
    exact ⟨number, rest⟩
  · unfold weightSum total
    rw [map_map]
    refine congrArg List.sum (map_congr_left fun e mem => ?_)
    exact (defined e mem).splitNumber.2.2.symm

theorem weighed_go {c : Scalar} (exactly : c.IsExact) (defined : Defined r e) (weighed : Weighed r terms) :
    Weighed r (mergeTerms.go c e terms) ∧
      weightSum r (mergeTerms.go c e terms) = weight r (c, e) + weightSum r terms := by
  induction terms generalizing c e with
  | nil => exact ⟨by simpa [mergeTerms.go, Weighed] using ⟨exactly, defined⟩, by simp [mergeTerms.go, weightSum]⟩
  | cons t terms ih =>
    obtain ⟨d, f⟩ := t
    obtain ⟨exactly', defined'⟩ := weighed (d, f) (by simp)
    have rest : Weighed r terms := fun t mem => weighed t (by simp [mem])
    rw [mergeTerms.go]
    split
    · rename_i equal
      have same := defined.eq_of_same defined' equal
      subst same
      obtain ⟨p, rfl⟩ := exactly
      obtain ⟨q, rfl⟩ := exactly'
      obtain ⟨kept, sum⟩ := ih (isExact_exact (p + q)) defined rest
      refine ⟨kept, ?_⟩
      rw [exact_add, sum]
      simp [weight, add_mul, add_assoc]
    · obtain ⟨kept, sum⟩ := ih exactly' defined' rest
      refine ⟨?_, by rw [weightSum_cons, sum, weightSum_cons]⟩
      intro t mem
      rcases mem_cons.mp mem with rfl | inside
      · exact ⟨exactly, defined⟩
      · exact kept t inside

theorem Weighed.mergeTerms (weighed : Weighed r terms) :
    Weighed r (mergeTerms terms) ∧ weightSum r (mergeTerms terms) = weightSum r terms := by
  cases terms with
  | nil => exact ⟨weighed, rfl⟩
  | cons t terms =>
    obtain ⟨exactly, defined⟩ := weighed t (by simp)
    have rest : Weighed r terms := fun t mem => weighed t (by simp [mem])
    obtain ⟨kept, sum⟩ := weighed_go exactly defined rest
    exact ⟨kept, by rw [weightSum_cons]; exact sum⟩

theorem Weighed.sortTerms (weighed : Weighed r terms) :
    Weighed r (sortTerms terms) ∧ weightSum r (sortTerms terms) = weightSum r terms := by
  have perm := sortTerms_perm terms
  exact ⟨fun t mem => weighed t (perm.mem_iff.mp mem), (perm.map _).sum_eq⟩

theorem Weighed.kept (weighed : Weighed r terms) :
    AllDefined r ((terms.filter (!·.1.isZero)).map fun (c, e) => withNumber c e) ∧
      total r ((terms.filter (!·.1.isZero)).map fun (c, e) => withNumber c e) = weightSum r terms := by
  induction terms with
  | nil => exact ⟨allDefined_nil, rfl⟩
  | cons t terms ih =>
    obtain ⟨c, e⟩ := t
    obtain ⟨⟨q, rfl⟩, defined⟩ := weighed (c, e) (by simp)
    obtain ⟨kept, sum⟩ := ih fun t mem => weighed t (by simp [mem])
    have means := means_withNumber q defined
    by_cases zero : q = 0
    · simp only [filter_cons, isZero_exact, zero, decide_true]
      refine ⟨kept, ?_⟩
      simpa [weight, zero] using sum
    · simp only [filter_cons, isZero_exact, zero, decide_false, Bool.not_false, if_true, map_cons]
      refine ⟨?_, by rw [total_cons, sum, means.value_eq, weightSum_cons]; rfl⟩
      exact allDefined_cons.mpr ⟨means.defined, kept⟩

/-! ### Sums of expressions -/

theorem means_ofTerms (c : ℚ) {terms : List Coeff} (defined : AllDefined r terms) :
    Means r (ofTerms (.exact c) terms) (c + total r terms) := by
  have sum : Means r (Coeff.sum (.exact c) terms) (c + total r terms) := means_sum c defined
  unfold ofTerms
  split
  · simpa using means_num c
  · rename_i t
    split
    · rename_i zero
      rw [exact_beq_zero, decide_eq_true_eq] at zero
      simpa [zero] using (defined t (by simp)).means
    · exact sum
  · exact sum

theorem means_collect (defined : AllDefined r es) : Means r (collect es) (total r es) := by
  obtain ⟨split, splitSum⟩ := (defined.filter (·.toScalar?.isNone)).splitNumber
  obtain ⟨sorted, sortedSum⟩ := split.sortTerms
  obtain ⟨merged, mergedSum⟩ := sorted.mergeTerms
  obtain ⟨kept, keptSum⟩ := merged.kept
  have proper : ((mergeTerms (sortTerms ((es.filter (·.toScalar?.isNone)).map Coeff.splitNumber))).any
      (·.1 == .undefined)) = false := by
    rw [any_eq_false]
    intro t mem
    obtain ⟨⟨q, found⟩, -⟩ := merged t mem
    rw [found]
    simp
  unfold collect
  simp only [defined.numberOf_eq, proper, reduceCtorEq, decide_false, Bool.or_self, Bool.false_eq_true, if_false,
    isFinite, if_true]
  have means := means_ofTerms (total r (es.filter (·.toScalar?.isSome)))
    (kept.perm (arrange_perm _))
  rw [total_perm (arrange_perm _), keptSum, mergedSum, sortedSum, splitSum] at means
  have parts := total_filter (r := r) (·.toScalar?.isSome) es
  simp only [Option.not_isSome] at parts
  rwa [parts] at means

theorem means_addAll (defined : AllDefined r es) : Means r (addAll es) (total r es) := by
  unfold addAll
  generalize filtered : es.filter _ = fs
  have kept : AllDefined r fs := filtered ▸ defined.filter _
  have same : total r fs = total r es := by
    rw [← filtered]
    refine total_filter_of_vanish fun e mem dropped => ?_
    cases e with
    | num c =>
      obtain ⟨q, rfl⟩ := (defined _ mem).of_num
      simpa [bne] using dropped
    | _ => cases dropped
  rw [← same]
  split
  · exact means_zero
  · rename_i e
    simpa using (kept e (by simp)).means
  · obtain ⟨opened, same⟩ := kept.openSums
    exact same ▸ means_collect opened

theorem Means.add {a b : Coeff} {x y : ℚ} (left : Means r a x) (right : Means r b y) : Means r (add a b) (x + y) := by
  have both : Means r (addAll [a, b]) (x + y) := by
    have defined : AllDefined r [a, b] := by simpa using ⟨left.defined, right.defined⟩
    have sum := means_addAll defined
    simpa [left.value_eq, right.value_eq] using sum
  unfold Coeff.add
  split
  · rename_i c d
    obtain ⟨p, rfl⟩ := left.defined.of_num
    obtain ⟨q, rfl⟩ := right.defined.of_num
    rw [← left.value_eq, ← right.value_eq]
    exact means_num (p + q)
  · exact both

theorem means_distribute (c d : ℚ) {terms : List Coeff} (defined : AllDefined r terms) :
    Means r (distribute (.exact c) (.exact d) terms) (c * (d + total r terms)) := by
  have scaled : ∀ t ∈ terms, Means r (scaleTerm (.exact c) t) (c * value r t) :=
    fun t inside => means_scaleTerm c (defined t inside)
  have sum := means_addAll (allDefined_cons.mpr ⟨Defined.num (c * d), allDefined_map scaled⟩)
  rwa [total_cons, total_map scaled, sum_map_mul_left, value_num, rational_exact, ← mul_add] at sum

end Bladewright.Coeff
