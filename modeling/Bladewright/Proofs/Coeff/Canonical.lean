import Bladewright.Proofs.Coeff.Sum

/-!
The form that evaluated expressions have: a power has a name, a read or a sum as its base, a product has such powers
as its factors, and a sum has products and powers as its terms.
-/
namespace Bladewright

open List Coeff

namespace Scalar

/-- The numbers that exact ones come to: exact ones again, and what a division by zero leaves. -/
def Arises : Scalar → Prop
  | exact _ | unsigned | undefined => True
  | approx _ | infinity _ => False

variable {c d : Scalar}

theorem Arises.add (left : c.Arises) (right : d.Arises) : (c + d).Arises := by
  cases c <;> cases d <;> trivial

theorem Arises.mul (left : c.Arises) (right : d.Arises) : (c * d).Arises := by
  show (Scalar.mul c d).Arises
  cases c <;> cases d <;> simp only [Scalar.mul] <;> first
    | trivial
    | split <;> trivial

theorem Arises.neg (h : c.Arises) : (-c).Arises := by
  cases c <;> trivial

theorem arises_one : Arises 1 := trivial

theorem arises_ofInt (n : ℤ) : (ofInt n).Arises := trivial

/-- The numbers in front of terms: none of them is infinite. -/
def Weighs : Scalar → Prop
  | exact _ | undefined => True
  | _ => False

theorem Weighs.add (left : c.Weighs) (right : d.Weighs) : (c + d).Weighs := by
  cases c <;> cases d <;> trivial

end Scalar

namespace Coeff

open Scalar

/-! ### Forms -/

/-- Whether the whole powers of an expression stay as they are: it is a name, an application, or a sum that is no
complex number. -/
def isBare : Coeff → Bool
  | sym _ | app .. => true
  | sum c ts => (complexParts? (sum c ts)).isNone
  | _ => false

def isFactor : Coeff → Bool
  | pow b _ => b.isBare
  | e => e.isBare

def isTerm : Coeff → Bool
  | num _ | sum .. => false
  | _ => true

/-- Evaluated expressions over some names, with sums nested to a level. A number in front of a single sum is
multiplied into it, and one beside an infinite product is not. -/
inductive Canonical (names : String → Prop) : Nat → Coeff → Prop
  | num {k : Nat} {c : Scalar} (arises : c.Arises) : Canonical names k (num c)
  | sym {k : Nat} {s : String} (named : names s) : Canonical names k (sym s)
  | only {k : Nat} {s : String} (named : names s) : Canonical names k (app "getcomponent" [sym s])
  | component {k : Nat} {s : String} (named : names s) (i : Nat) :
      Canonical names k (app "getcomponent" [sym s, ofInt i])
  | pow {k : Nat} {b : Coeff} {n : ℤ} (base : Canonical names k b) (bare : b.isBare) (zero : n ≠ 0) (one : n ≠ 1) :
      Canonical names k (pow b (ofInt n))
  | prod {k : Nat} {c : Scalar} {fs : List Coeff} (arises : c.Arises) (nonzero : c.isZero = false)
      (factors : ∀ f ∈ fs, Canonical names k f) (plain : ∀ f ∈ fs, f.isFactor) (nonempty : fs ≠ [])
      (several : c.isOne → 2 ≤ fs.length) (alone : c ≠ .unsigned → ∀ f, fs = [f] → f.isTerm) :
      Canonical names k (prod c fs)
  | beside {k : Nat} {q : ℚ} {fs : List Coeff} (zero : q ≠ 0) (one : q ≠ 1)
      (factors : ∀ f ∈ fs, Canonical names k f) (plain : ∀ f ∈ fs, f.isFactor) (nonempty : fs ≠ []) :
      Canonical names k (prod (.exact q) [prod .unsigned fs])
  | sum {k : Nat} {c : Scalar} {ts : List Coeff} (arises : c.Arises) (terms : ∀ t ∈ ts, Canonical names k t)
      (proper : ∀ t ∈ ts, t.isTerm) (nonempty : ts ≠ []) : Canonical names (k + 1) (sum c ts)

variable {names : String → Prop} {j k : Nat}

variable {e t : Coeff} {es ts fs : List Coeff} {c d : Scalar} {q : ℚ} {terms : List (Scalar × Coeff)}

theorem Canonical.mono (canonical : Canonical names j e) (le : j ≤ k) : Canonical names k e := by
  induction canonical generalizing k with
  | num arises => exact .num arises
  | sym named => exact .sym named
  | only named => exact .only named
  | component named i => exact .component named i
  | pow _ bare zero one ih => exact .pow (ih le) bare zero one
  | prod arises nonzero _ plain nonempty several alone ih =>
    exact .prod arises nonzero (fun f mem => ih f mem le) plain nonempty several alone
  | beside zero one _ plain nonempty ih => exact .beside zero one (fun f mem => ih f mem le) plain nonempty
  | sum arises _ proper nonempty ih =>
    obtain ⟨k, rfl⟩ : ∃ i, k = i + 1 := ⟨k - 1, by omega⟩
    exact .sum arises (fun t mem => ih t mem (by omega)) proper nonempty

theorem exists_level (canonical : ∀ e ∈ es, ∃ k, Canonical names k e) : ∃ k, ∀ e ∈ es, Canonical names k e := by
  induction es with
  | nil => exact ⟨0, by simp⟩
  | cons e es ih =>
    obtain ⟨⟨j, first⟩, rest⟩ := forall_mem_cons.mp canonical
    obtain ⟨k, others⟩ := ih rest
    exact ⟨max j k, forall_mem_cons.mpr ⟨first.mono (le_max_left j k),
      fun e mem => (others e mem).mono (le_max_right j k)⟩⟩

theorem Canonical.relabel {named : String → Prop} (canonical : Canonical names k e)
    (all : ∀ s ∈ e.symbols, names s → named s) : Canonical named k e := by
  induction canonical with
  | num arises => exact .num arises
  | sym own => exact .sym (all _ (by simp [symbols]) own)
  | only own => exact .only (all _ (by simp [symbols]) own)
  | component own i => exact .component (all _ (by simp [symbols]) own) i
  | pow _ bare zero one ih =>
    refine .pow (ih fun s inside => all s ?_) bare zero one
    rw [symbols]
    exact mem_append_left _ inside
  | prod arises nonzero _ plain nonempty several alone ih =>
    refine .prod arises nonzero (fun f mem => ih f mem fun s inside => all s ?_) plain nonempty several alone
    exact mem_symbols_prod.mpr ⟨f, mem, inside⟩
  | beside zero one _ plain nonempty ih =>
    refine .beside zero one (fun f mem => ih f mem fun s inside => all s ?_) plain nonempty
    exact mem_symbols_prod.mpr ⟨_, mem_singleton_self _, mem_symbols_prod.mpr ⟨f, mem, inside⟩⟩
  | sum arises _ proper nonempty ih =>
    refine .sum arises (fun t mem => ih t mem fun s inside => all s ?_) proper nonempty
    exact mem_symbols_sum.mpr ⟨t, mem, inside⟩

theorem isBare_sum (terms : ∀ t ∈ ts, Canonical names k t) : (sum c ts).isBare := by
  show (complexParts? (sum c ts)).isNone
  unfold complexParts?
  split
  · rename_i same
    cases same
    cases terms (const .imaginary) (by simp)
  · rename_i d same
    cases same
    cases terms (prod d [const .imaginary]) (by simp) with
    | prod _ _ factors => cases factors (const .imaginary) (by simp)
  · rfl

theorem Canonical.scaled {f : Coeff} (canonical : Canonical names k f) (factor : f.isFactor)
    (term : f.isTerm) (zero : q ≠ 0) (one : q ≠ 1) : Canonical names k (Coeff.prod (.exact q) [f]) :=
  .prod trivial (by simp [zero]) (by simpa using canonical) (by simpa using factor) (by simp) (by simp [one])
    (by simpa using term)

/-! ### Terms of sums -/

/-- An expression that is a term with every number in front of it. -/
def IsRest (names : String → Prop) (k : Nat) (e : Coeff) : Prop :=
  ∀ q : ℚ, q ≠ 0 → Canonical names k (withNumber (.exact q) e) ∧ (withNumber (.exact q) e).isTerm

theorem isRest_factor (canonical : Canonical names k e) (factor : e.isFactor) (term : e.isTerm) : IsRest names k e := by
  intro q zero
  by_cases one : q = 1
  · simpa [withNumber, one] using ⟨canonical, term⟩
  · cases e with
    | num | prod | const => cases factor
    | sum => cases term
    | _ => simpa [withNumber, one] using ⟨canonical.scaled factor term zero one, rfl⟩

theorem isRest_unsigned (factors : ∀ f ∈ fs, Canonical names k f) (plain : ∀ f ∈ fs, f.isFactor)
    (nonempty : fs ≠ []) : IsRest names k (prod .unsigned fs) := by
  intro q zero
  have infinite : Scalar.isOne .unsigned = false := rfl
  by_cases one : q = 1
  · have whole : Canonical names k (prod .unsigned fs) :=
      .prod trivial rfl factors plain nonempty (by simp [infinite]) (absurd rfl)
    simpa [withNumber, one] using ⟨whole, rfl⟩
  · simpa [withNumber, one, infinite] using ⟨Canonical.beside zero one factors plain nonempty, rfl⟩

theorem isRest_several (factors : ∀ f ∈ fs, Canonical names k f) (plain : ∀ f ∈ fs, f.isFactor)
    (several : 2 ≤ fs.length) : IsRest names k (prod 1 fs) := by
  intro q zero
  have nonempty : fs ≠ [] := by
    rintro rfl
    simp at several
  have alone (f : Coeff) (single : fs = [f]) : f.isTerm := by
    subst single
    simp at several
  by_cases one : q = 1
  · have whole : Canonical names k (prod 1 fs) :=
      .prod trivial (by simp [Scalar.one_eq]) factors plain nonempty (fun _ => several) fun _ => alone
    simpa [withNumber, one] using ⟨whole, rfl⟩
  · have whole : Canonical names k (prod (.exact q) fs) :=
      .prod trivial (by simp [zero]) factors plain nonempty (by simp [one]) fun _ => alone
    simpa [withNumber, one, Scalar.one_eq] using ⟨whole, rfl⟩

theorem Canonical.splitNumber (canonical : Canonical names k t) (term : t.isTerm) :
    t.splitNumber.1.Weighs ∧ IsRest names k t.splitNumber.2 := by
  have whole (factor : t.isFactor) : Scalar.Weighs 1 ∧ IsRest names k t :=
    ⟨trivial, isRest_factor canonical factor term⟩
  cases canonical with
  | num | sum => cases term
  | pow _ bare => exact whole bare
  | @prod _ c fs arises _ factors plain nonempty _ alone =>
    rcases fs with _ | ⟨f, _ | ⟨g, fs⟩⟩
    · exact absurd rfl nonempty
    · have factor := factors f (by simp)
      have power := plain f (by simp)
      cases c with
      | approx | infinity => exact arises.elim
      | unsigned => exact ⟨trivial, isRest_unsigned factors plain nonempty⟩
      | exact | undefined =>
        exact ⟨trivial, isRest_factor factor power (alone nofun f rfl)⟩
    · cases c with
      | approx | infinity => exact arises.elim
      | unsigned => exact ⟨trivial, isRest_unsigned factors plain nonempty⟩
      | exact | undefined => exact ⟨trivial, isRest_several factors plain (by simp)⟩
  | beside _ _ factors plain nonempty => exact ⟨trivial, isRest_unsigned factors plain nonempty⟩
  | _ => exact whole rfl

theorem isSum_of_isTerm (term : e.isTerm) : e.isSum = false := by
  cases e <;> first | rfl | cases term

theorem Canonical.scaleTerm (zero : q ≠ 0) (canonical : Canonical names k t)
    (term : t.isTerm) : Canonical names k (scaleTerm (.exact q) t) ∧ (scaleTerm (.exact q) t).isSum = false := by
  have rest (factor : t.isFactor) : Canonical names k (withNumber (.exact q) t) ∧
      (withNumber (.exact q) t).isSum = false := by
    obtain ⟨scaled, kept⟩ := isRest_factor canonical factor term q zero
    exact ⟨scaled, isSum_of_isTerm kept⟩
  cases canonical with
  | num | sum => cases term
  | pow _ bare => exact rest bare
  | @prod _ c fs arises _ factors plain nonempty _ alone =>
    have finite : Scalar.exact q * c ≠ .unsigned → c ≠ .unsigned := by
      rintro differ rfl
      exact differ (if_neg (by simp [zero]))
    by_cases vanishes : (Scalar.exact q * c).isZero
    · simp only [scaleTerm, vanishes, if_true]
      exact ⟨.num (Arises.mul trivial arises), rfl⟩
    · have product (several : (Scalar.exact q * c).isOne → 2 ≤ fs.length) :
          Canonical names k (Coeff.prod (.exact q * c) fs) :=
        .prod (Arises.mul trivial arises) (by simpa using vanishes) factors plain nonempty several
          fun differ => alone (finite differ)
      rcases fs with _ | ⟨f, _ | ⟨g, fs⟩⟩
      · exact absurd rfl nonempty
      · cases one : (Scalar.exact q * c).isOne with
        | true =>
          have term : f.isTerm := alone (finite fun infinite => by rw [infinite] at one; cases one) f rfl
          simp only [scaleTerm, vanishes, one]
          exact ⟨factors f (by simp), isSum_of_isTerm term⟩
        | false =>
          simp only [scaleTerm, vanishes, one]
          exact ⟨product (by simp [one]), rfl⟩
      · have same : Coeff.scaleTerm (.exact q) (Coeff.prod c (f :: g :: fs)) =
            Coeff.prod (.exact q * c) (f :: g :: fs) := by
          simp only [scaleTerm, vanishes]
          cases (Scalar.exact q * c).isOne <;> rfl
        rw [same]
        exact ⟨product (by simp), rfl⟩
  | @beside _ p fs nonzero _ factors plain nonempty =>
    have infinite := isRest_unsigned factors plain nonempty (q * p) (mul_ne_zero zero nonzero)
    have same : Coeff.scaleTerm (.exact q) (Coeff.prod (.exact p) [Coeff.prod .unsigned fs]) =
        withNumber (.exact (q * p)) (Coeff.prod .unsigned fs) := by
      have infinite : Scalar.isOne .unsigned = false := rfl
      simp only [scaleTerm, withNumber, exact_mul, isZero_exact, isOne_exact, mul_ne_zero zero nonzero, infinite]
      by_cases one : q * p = 1 <;> simp [one]
    rw [same]
    exact ⟨infinite.1, isSum_of_isTerm infinite.2⟩
  | _ => exact rest rfl

/-! ### Sums -/

/-- A sum of terms of a level, or an expression of this level. -/
def Additive (names : String → Prop) (k : Nat) (e : Coeff) : Prop :=
  Canonical names k e ∨ e.isSum ∧ Canonical names (k + 1) e

theorem Additive.canonical (additive : Additive names k e) : Canonical names (k + 1) e :=
  additive.elim (·.mono (Nat.le_succ k)) (·.2)

theorem Additive.summands (additive : Additive names k e) :
    ∀ t ∈ e.summands, Canonical names k t ∧ t.isSum = false := by
  have canonical := additive.canonical
  cases canonical with
  | @sum _ c ts arises terms proper nonempty =>
    have parts : ∀ t ∈ ts, Canonical names k t ∧ t.isSum = false :=
      fun t mem => ⟨terms t mem, isSum_of_isTerm (proper t mem)⟩
    unfold summands
    simp only
    split
    · exact parts
    · exact forall_mem_cons.mpr ⟨⟨.num arises, rfl⟩, parts⟩
  | _ =>
    obtain level | ⟨⟨⟩, -⟩ := additive
    simpa [summands] using ⟨level, rfl⟩

theorem additive_ofTerms (arises : c.Arises)
    (terms : ∀ t ∈ ts, Canonical names k t ∧ t.isTerm) : Additive names k (ofTerms c ts) := by
  have whole (nonempty : ts ≠ []) : Additive names k (sum c ts) :=
    .inr ⟨rfl, .sum arises (fun t mem => (terms t mem).1) (fun t mem => (terms t mem).2) nonempty⟩
  unfold ofTerms
  split
  · exact .inl (.num arises)
  · rename_i t
    split
    · exact .inl (terms t (by simp)).1
    · exact whole (by simp)
  · rename_i nonempty _
    exact whole nonempty

theorem arises_foldl_add {cs : List Scalar} (arises : ∀ c ∈ cs, c.Arises) (start : d.Arises) :
    (cs.foldl (· + ·) d).Arises := by
  induction cs generalizing d with
  | nil => exact start
  | cons c cs ih =>
    rw [forall_mem_cons] at arises
    exact ih arises.2 (start.add arises.1)

theorem Canonical.arises (canonical : Canonical names k (Coeff.num c)) : c.Arises := by
  cases canonical with
  | num arises => exact arises

theorem arises_of_mem_toScalar? (canonical : ∀ e ∈ es, Canonical names k e) :
    ∀ c ∈ es.filterMap toScalar?, c.Arises := by
  intro c mem
  obtain ⟨e, inside, found⟩ := mem_filterMap.mp mem
  cases e with
  | num d =>
    cases found
    exact (canonical _ inside).arises
  | _ => cases found

def IsWeighed (names : String → Prop) (k : Nat) (t : Scalar × Coeff) : Prop := t.1.Weighs ∧ IsRest names k t.2

theorem isWeighed_go (first : IsWeighed names k (c, e))
    (rest : ∀ t ∈ terms, IsWeighed names k t) : ∀ t ∈ mergeTerms.go c e terms, IsWeighed names k t := by
  induction terms generalizing c e with
  | nil => simpa [mergeTerms.go] using first
  | cons t terms ih =>
    obtain ⟨next, others⟩ := forall_mem_cons.mp rest
    rw [mergeTerms.go]
    split
    · exact ih ⟨first.1.add next.1, first.2⟩ others
    · exact forall_mem_cons.mpr ⟨first, ih next others⟩

theorem isWeighed_mergeTerms (weighed : ∀ t ∈ terms, IsWeighed names k t) :
    ∀ t ∈ mergeTerms terms, IsWeighed names k t := by
  cases terms with
  | nil => exact weighed
  | cons t terms =>
    obtain ⟨first, rest⟩ := forall_mem_cons.mp weighed
    exact isWeighed_go first rest

theorem isTerm_of_parts (number : e.toScalar? = none) (summand : e.isSum = false) : e.isTerm := by
  cases e with
  | num => cases number
  | sum => cases summand
  | _ => rfl

theorem additive_collect (summands : ∀ e ∈ es, Canonical names k e ∧ e.isSum = false) :
    Additive names k (collect es) := by
  have number : (numberOf es).Arises :=
    arises_foldl_add (arises_of_mem_toScalar? fun e mem => (summands e mem).1) trivial
  have weighed : ∀ t ∈ (es.filter (·.toScalar?.isNone)).map splitNumber, IsWeighed names k t := by
    intro t mem
    obtain ⟨e, inside, rfl⟩ := mem_map.mp mem
    obtain ⟨inside, symbolic⟩ := mem_filter.mp inside
    obtain ⟨canonical, summand⟩ := summands e inside
    exact canonical.splitNumber (isTerm_of_parts (Option.isNone_iff_eq_none.mp symbolic) summand)
  have merged := isWeighed_mergeTerms fun t mem => weighed t ((sortTerms_perm _).mem_iff.mp mem)
  unfold collect
  simp only
  split
  · exact .inl (.num trivial)
  · rename_i proper
    rw [Bool.or_eq_true, not_or] at proper
    refine additive_ofTerms number fun t mem => ?_
    have kept : t ∈ ((mergeTerms (sortTerms ((es.filter (·.toScalar?.isNone)).map splitNumber))).filter
        (!·.1.isZero)).map fun t => withNumber t.1 t.2 := by
      have mem := (arrange_perm _).mem_iff.mp mem
      split at mem
      · exact mem
      · exact mem_of_mem_filter mem
    obtain ⟨⟨c, e⟩, inside, rfl⟩ := mem_map.mp kept
    obtain ⟨inside, nonzero⟩ := mem_filter.mp inside
    obtain ⟨weighs, rest⟩ := merged _ inside
    cases c with
    | exact q => exact rest q (by simpa using nonzero)
    | undefined => exact absurd (any_eq_true.mpr ⟨_, inside, by simp⟩) proper.2
    | _ => exact weighs.elim

theorem additive_addAll (additive : ∀ e ∈ es, Additive names k e) : Additive names k (addAll es) := by
  unfold addAll
  generalize filtered : es.filter _ = fs
  have kept : ∀ e ∈ fs, Additive names k e := fun e mem => additive e (mem_of_mem_filter (filtered ▸ mem))
  split
  · exact .inl (.num trivial)
  · rename_i e
    exact kept e (by simp)
  · refine additive_collect fun e mem => ?_
    rcases mem_append.mp mem with plain | opened
    · obtain ⟨inside, summand⟩ := mem_filter.mp plain
      have summand : e.isSum = false := by simpa using summand
      rcases kept e inside with level | ⟨isSum, -⟩
      · exact ⟨level, summand⟩
      · rw [summand] at isSum
        cases isSum
    · obtain ⟨f, inside, part⟩ := mem_flatMap.mp opened
      exact (kept f (mem_of_mem_filter inside)).summands e part

theorem additive_distribute (zero : q ≠ 0)
    (canonical : Canonical names (k + 1) (sum d ts)) : Additive names k (distribute (.exact q) d ts) := by
  cases canonical with
  | sum arises terms proper =>
    refine additive_addAll (forall_mem_cons.mpr ⟨.inl (.num (Arises.mul trivial arises)), ?_⟩)
    intro e mem
    obtain ⟨t, inside, rfl⟩ := mem_map.mp mem
    exact .inl ((terms t inside).scaleTerm zero (proper t inside)).1

end Coeff

end Bladewright
