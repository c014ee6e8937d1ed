import Bladewright.Proofs.Algebra.Coefficients
import Bladewright.Proofs.Coeff.ExpandedForm

/-!
Monomials in reads of components: a number times distinct reads.
-/
namespace Bladewright.Coeff

open List Scalar

/-! ### Reads -/

/-- The reads of components by index. Products and expansion leave them as they are. -/
def IsRead (e : Coeff) : Prop := ∃ (source : String) (i : Nat), e = app "getcomponent" [sym source, ofInt i]

variable {x y : Coeff} {q : ℚ} {fs : List Coeff}

theorem IsRead.defined (read : IsRead x) (r : Reading) : Defined r x := by
  obtain ⟨source, i, rfl⟩ := read
  exact .component source i

theorem IsRead.toScalar? (read : IsRead x) : x.toScalar? = none := by
  obtain ⟨source, i, rfl⟩ := read
  rfl

theorem exists_variables (reads : ∀ f ∈ fs, IsRead f) : ∃ vs : List Variable, fs = vs.map Variable.read := by
  induction fs with
  | nil => exact ⟨[], rfl⟩
  | cons f fs ih =>
    rw [forall_mem_cons] at reads
    obtain ⟨⟨source, i, rfl⟩, others⟩ := reads
    obtain ⟨vs, rfl⟩ := ih others
    exact ⟨.component source (some i) :: vs, rfl⟩

def nowhere : Reading := ⟨fun _ => none, fun _ _ => 0⟩

/-! ### Products of reads -/

theorem multiply_reads {depth : Nat} {args : List Coeff} {number : Scalar} (reads : ∀ f ∈ fs, IsRead f)
    (distinct : fs.Nodup) (nonzero : q ≠ 0) (value : number = .exact q)
    (sorted : sortFactors (operations depth) (takeUp (operations depth)
      (4 * args.foldl (fun n e => n + e.multiplicands.length + 1) 16) args []) =
      { number, powers := fs.map fun f => (f, 1) }) :
    multiply (operations depth) args = ofFactors (.exact q) (arrange fs) := by
  subst value
  have symbolic : ∀ f ∈ fs, f.toScalar? = none := fun f mem => (reads f mem).toScalar?
  obtain ⟨vs, rfl⟩ := exists_variables reads
  have keys : ((vs.map fun v => (v, (1 : ℤ))).map Prod.fst).Nodup := by
    simpa [Function.comp_def] using distinct.of_map
  have powers : (vs.map Variable.read).map (fun f => (f, (1 : Coeff))) =
      (vs.map fun v => (v, (1 : ℤ))).map fun p => (p.1.read, ofInt p.2) := by
    simp [one_eq_ofInt]
  have values : ((vs.map fun v => (v, (1 : ℤ))).filter (·.2 ≠ 0)).map (power Variable.read) = vs.map Variable.read := by
    rw [filter_eq_self.mpr (by simp), map_map]
    rfl
  rw [multiply_eq sorted, powers, gather_powers bases_read.apart, gathered_of_nodup keys, bases_read.evaluateAll,
    Option.elim_some, values]
  exact settleNumber_exact nonzero symbolic

def IsMonomial (q : ℚ) (fs : List Coeff) (e : Coeff) : Prop := ∃ gs : List Coeff, gs.Perm fs ∧ e = prod (.exact q) gs

variable {e : Coeff} {gs : List Coeff}

theorem IsMonomial.perm (monomial : IsMonomial q fs e) (perm : fs.Perm gs) : IsMonomial q gs e := by
  obtain ⟨hs, ordered, rfl⟩ := monomial
  exact ⟨hs, ordered.trans perm, rfl⟩

theorem forall_mem_of_perm_pair {P : Coeff → Prop} (perm : gs.Perm [x, y]) (left : P x)
    (right : P y) : ∀ f ∈ gs, P f := by
  intro f mem
  have listed := perm.mem_iff.mp mem
  simp only [mem_cons, not_mem_nil, or_false] at listed
  rcases listed with rfl | rfl
  exacts [left, right]

theorem isMonomial_ofFactors (several : 2 ≤ fs.length) : IsMonomial q fs (ofFactors (.exact q) (arrange fs)) := by
  refine ⟨arrange fs, arrange_perm fs, ?_⟩
  have length := (arrange_perm fs).length_eq
  generalize arrange fs = gs at length ⊢
  obtain _ | ⟨g, _ | ⟨h, gs⟩⟩ := gs
  · simp at length; omega
  · simp at length; omega
  · cases g <;> rfl

theorem isMonomial_mulAll (left : IsRead x) (right : IsRead y) (differ : x ≠ y) :
    IsMonomial 1 [x, y] (mulAll [x, y]) := by
  have reads : ∀ f ∈ [x, y], IsRead f := by simpa using ⟨left, right⟩
  have product : mulAll [x, y] = ofFactors (.exact 1) (arrange [x, y]) := by
    obtain ⟨source, i, rfl⟩ := left
    obtain ⟨source', j, rfl⟩ := right
    exact multiply_reads reads (by simpa using differ) one_ne_zero Scalar.one_eq rfl
  rw [product]
  exact isMonomial_ofFactors le_rfl

theorem neg_read (read : IsRead x) : neg x = prod (.exact (-1)) [x] := by
  have reads : ∀ f ∈ [x], IsRead f := by simpa using read
  have number : (1 : Scalar) * .exact (-1 : ℤ) = .exact (-1) := by
    rw [Scalar.one_eq, exact_mul, one_mul, Int.cast_neg, Int.cast_one]
  have product : neg x = ofFactors (.exact (-1)) (arrange [x]) := by
    obtain ⟨source, i, rfl⟩ := read
    exact multiply_reads reads (nodup_singleton _) (neg_ne_zero.mpr one_ne_zero) number rfl
  rw [product]
  obtain ⟨source, i, rfl⟩ := read
  rfl

theorem isMonomial_mulAll_neg (left : IsRead x) (right : IsRead y) (differ : x ≠ y) :
    IsMonomial (-1) [x, y] (mulAll [prod (.exact (-1)) [x], y]) := by
  have reads : ∀ f ∈ [y, x], IsRead f := by simpa using ⟨right, left⟩
  have number : (1 : Scalar) * .exact (-1) = .exact (-1) := by
    rw [Scalar.one_eq, exact_mul, one_mul]
  have product : mulAll [prod (.exact (-1)) [x], y] = ofFactors (.exact (-1)) (arrange [y, x]) := by
    obtain ⟨source, i, rfl⟩ := left
    obtain ⟨source', j, rfl⟩ := right
    exact multiply_reads reads (by simpa using Ne.symm differ) (neg_ne_zero.mpr one_ne_zero) number rfl
  rw [product]
  exact (isMonomial_ofFactors le_rfl).perm (.swap x y [])

theorem IsMonomial.neg (monomial : IsMonomial (-1) [x, y] e) (left : IsRead x) (right : IsRead y)
    (differ : x ≠ y) : IsMonomial 1 [x, y] e.neg := by
  obtain ⟨gs, perm, rfl⟩ := monomial
  have reads : ∀ f ∈ gs, IsRead f := forall_mem_of_perm_pair perm left right
  have distinct : gs.Nodup := perm.nodup_iff.mpr (by simpa using differ)
  have number : (1 : Scalar) * .exact (-1 : ℤ) * .exact (-1) = .exact 1 := by
    rw [Scalar.one_eq, exact_mul, exact_mul]
    norm_num
  have product : (prod (.exact (-1)) gs).neg = ofFactors (.exact 1) (arrange gs) := by
    obtain ⟨g, h, rfl⟩ := length_eq_two.mp perm.length_eq
    obtain ⟨source, i, rfl⟩ := reads g (by simp)
    obtain ⟨source', j, rfl⟩ := reads h (by simp)
    exact multiply_reads reads distinct one_ne_zero number rfl
  rw [product]
  exact (isMonomial_ofFactors perm.length_eq.ge).perm perm

/-! ### Expansion -/

theorem expand_prod (reads : ∀ f ∈ fs, IsRead f) : expand (prod (.exact q) fs) = prod (.exact q) fs := by
  obtain ⟨vs, rfl⟩ := exists_variables reads
  have powers : vs.map Variable.read = (vs.map fun v => (v, (1 : ℤ))).map factor := by
    rw [map_map]
    rfl
  rw [powers]
  exact expand_spared fun spares => everywhere_factors spares _ _

theorem IsMonomial.expand (monomial : IsMonomial q fs e) (reads : ∀ f ∈ fs, IsRead f) : IsMonomial q fs e.expand := by
  obtain ⟨gs, perm, rfl⟩ := monomial
  rw [expand_prod fun f mem => reads f (perm.mem_iff.mp mem)]
  exact ⟨gs, perm, rfl⟩

theorem isMonomial_signedMul {sign : ℤ} (unit : sign = 1 ∨ sign = -1) (left : IsRead x) (right : IsRead y)
    (differ : x ≠ y) : IsMonomial sign [x, y] (Terms.signedMul sign x y) := by
  have reads : ∀ f ∈ [x, y], IsRead f := by simpa using ⟨left, right⟩
  rcases unit with rfl | rfl
  · have product : Coeff.mul x y = mulAll [x, y] := by
      obtain ⟨source, i, rfl⟩ := left
      rfl
    show IsMonomial ((1 : ℤ) : ℚ) [x, y] (Coeff.expand (Coeff.mul x y))
    rw [product, Int.cast_one]
    exact (isMonomial_mulAll left right differ).expand reads
  · show IsMonomial ((-1 : ℤ) : ℚ) [x, y] (Coeff.expand (Coeff.mul x.neg y))
    rw [neg_read left, Int.cast_neg, Int.cast_one]
    exact (isMonomial_mulAll_neg left right differ).expand reads

/-! ### Sums of monomials -/

/-- A number other than zero times at least two reads. -/
def IsProper (e : Coeff) : Prop :=
  ∃ (q : ℚ) (fs : List Coeff), e = prod (.exact q) fs ∧ q ≠ 0 ∧ 2 ≤ fs.length ∧ ∀ f ∈ fs, IsRead f

theorem splitNumber_several (several : 2 ≤ fs.length) :
    (prod (.exact q) fs).splitNumber = (.exact q, prod (.exact 1) fs) := by
  obtain _ | ⟨f, _ | ⟨g, fs⟩⟩ := fs
  · simp at several
  · simp at several
  · rw [← Scalar.one_eq]
    rfl

theorem withNumber_splitNumber (proper : IsProper e) : withNumber e.splitNumber.1 e.splitNumber.2 = e := by
  obtain ⟨q, fs, rfl, -, several, -⟩ := proper
  rw [splitNumber_several several, withNumber]
  by_cases one : q = 1
  · simp [one]
  · simp [one]

theorem ofTerms_several (c : Scalar) {ts : List Coeff} (several : 2 ≤ ts.length) : ofTerms c ts = sum c ts := by
  obtain _ | ⟨t, _ | ⟨u, ts⟩⟩ := ts
  · simp at several
  · simp at several
  · rfl

section

variable {es : List Coeff} (proper : ∀ e ∈ es, IsProper e)
include proper

theorem mem_sortTerms {t : Scalar × Coeff} (mem : t ∈ sortTerms (es.map splitNumber)) :
    ∃ (q : ℚ) (fs : List Coeff), t = (.exact q, prod (.exact 1) fs) ∧ q ≠ 0 ∧ ∀ f ∈ fs, IsRead f := by
  obtain ⟨e, listed, rfl⟩ := mem_map.mp ((sortTerms_perm _).mem_iff.mp mem)
  obtain ⟨q, fs, rfl, nonzero, several, reads⟩ := proper e listed
  exact ⟨q, fs, splitNumber_several several, nonzero, reads⟩

theorem mergeTerms_monomials (distinct : (es.map (·.splitNumber.2)).Nodup) :
    mergeTerms (sortTerms (es.map splitNumber)) = sortTerms (es.map splitNumber) := by
  have rests : ((sortTerms (es.map splitNumber)).map (·.2)).Nodup := by
    rw [((sortTerms_perm _).map _).nodup_iff, map_map]
    exact distinct
  have defined : ∀ t ∈ sortTerms (es.map splitNumber), Defined nowhere t.2 := fun t mem => by
    obtain ⟨q, fs, rfl, -, reads⟩ := mem_sortTerms proper mem
    exact .prod 1 fun f mem => (reads f mem).defined nowhere
  refine mergeTerms_distinct ((pairwise_map.mp rests).imp_of_mem fun left right differ => ?_)
  exact Bool.eq_false_iff.mpr fun equal => differ ((defined _ left).eq_of_same (defined _ right) equal)

theorem collect_monomials (distinct : (es.map (·.splitNumber.2)).Nodup) (several : 2 ≤ es.length) :
    ∃ ts : List Coeff, ts.Perm es ∧ collect es = sum 0 ts := by
  have symbolic : ∀ e ∈ es, e.toScalar? = none := fun e mem => by
    obtain ⟨q, fs, rfl, -⟩ := proper e mem
    rfl
  have number : numberOf es = 0 := by
    have numbers : es.filterMap toScalar? = [] := by simpa [filterMap_eq_nil_iff] using symbolic
    rw [numberOf, numbers]
    rfl
  have terms : es.filter (·.toScalar?.isNone) = es := by
    rw [filter_eq_self]
    exact fun e mem => by rw [symbolic e mem]; rfl
  have known : (sortTerms (es.map splitNumber)).any (·.1 == .undefined) = false := by
    rw [any_eq_false]
    intro t mem
    obtain ⟨q, fs, rfl, -⟩ := mem_sortTerms proper mem
    simp
  have kept : (sortTerms (es.map splitNumber)).filter (!·.1.isZero) = sortTerms (es.map splitNumber) := by
    rw [filter_eq_self]
    intro t mem
    obtain ⟨q, fs, rfl, nonzero, -⟩ := mem_sortTerms proper mem
    simp [nonzero]
  have whole : (arrange ((sortTerms (es.map splitNumber)).map fun t => withNumber t.1 t.2)).Perm es := by
    refine (arrange_perm _).trans (((sortTerms_perm _).map _).trans ?_)
    rw [map_map]
    exact .of_eq ((map_congr_left fun e mem => withNumber_splitNumber (proper e mem)).trans
      (map_id es))
  refine ⟨_, whole, ?_⟩
  rw [← ofTerms_several 0 (whole.length_eq ▸ several), collect]
  simp only [number, terms, mergeTerms_monomials proper distinct, known, kept]
  rfl

end

theorem summands_sum_zero (ts : List Coeff) : (sum 0 ts).summands = ts := by
  simp [summands]

/-- What sums of these monomials come to: a single one stays as it is. -/
def IsTotal (es : List Coeff) (e : Coeff) : Prop :=
  es = [e] ∨ 2 ≤ es.length ∧ ∃ ts : List Coeff, ts.Perm es ∧ e = sum 0 ts

theorem IsTotal.add {es : List Coeff} {m : Coeff} (total : IsTotal es e) (proper : ∀ e ∈ es ++ [m], IsProper e)
    (distinct : ((es ++ [m]).map (·.splitNumber.2)).Nodup) : IsTotal (es ++ [m]) (e + m) := by
  obtain ⟨q, fs, rfl, -⟩ := proper m (by simp)
  -- a sum that is added to is opened, so all monomials are collected anew
  have opened : ∃ os : List Coeff, os.Perm (es ++ [prod (.exact q) fs]) ∧ e + prod (.exact q) fs = collect os := by
    rcases total with rfl | ⟨-, ts, perm, rfl⟩
    · obtain ⟨p, gs, rfl, -⟩ := proper e (by simp)
      exact ⟨_, .refl _, rfl⟩
    · refine ⟨prod (.exact q) fs :: ts, (perm.cons _).trans (perm_append_singleton _ _).symm, ?_⟩
      show collect (prod (.exact q) fs :: ((sum 0 ts).summands ++ [])) = _
      rw [summands_sum_zero, append_nil]
  obtain ⟨os, perm, sum⟩ := opened
  have several : 2 ≤ (es ++ [prod (.exact q) fs]).length := by
    have nonempty : es ≠ [] := by
      rintro rfl
      rcases total with empty | ⟨empty, -⟩ <;> simp at empty
    have := length_pos_iff.mpr nonempty
    simp
    omega
  obtain ⟨ts, perm', collected⟩ := collect_monomials (fun e mem => proper e (perm.mem_iff.mp mem))
    ((perm.map _).nodup_iff.mpr distinct) (perm.length_eq ▸ several)
  exact .inr ⟨several, ts, perm'.trans perm, sum.trans collected⟩

theorem isTotal_addUp {es : List Coeff} (proper : ∀ e ∈ es, IsProper e)
    (distinct : (es.map (·.splitNumber.2)).Nodup) (sum : Terms.addUp none es = some e) : IsTotal es e := by
  induction es using List.reverseRecOn generalizing e with
  | nil => cases sum
  | append_singleton es m ih =>
    rw [Terms.addUp, foldl_append, foldl_cons, foldl_nil, Option.some.injEq] at sum
    subst sum
    cases before : es.foldl (fun sum c => some (sum.elim c (· + c))) none with
    | none =>
      have empty : es = [] := not_not.mp fun nonempty => by
        have present := (Terms.isSome_addUp es).mpr nonempty
        rw [Terms.addUp, before] at present
        cases present
      subst empty
      exact .inl rfl
    | some e =>
      rw [map_append] at distinct
      have earlier := ih (fun e mem => proper e (mem_append_left _ mem))
        (nodup_append.mp distinct).1 before
      exact earlier.add proper (map_append ▸ distinct)

end Bladewright.Coeff
