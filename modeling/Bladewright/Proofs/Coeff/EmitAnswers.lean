import Bladewright.Proofs.Coeff.CanonicalPower
import Bladewright.Proofs.Coeff.Emit

/-!
Every evaluated expression has code, unless a name in it is no expression or a number in it is not finite.
-/
namespace Bladewright

open List

namespace Scalar

/-- The numbers that have no sign and no denominator. -/
def Counts : Scalar → Prop
  | exact q => 0 < q ∧ q.den = 1
  | unsigned | undefined => True
  | approx _ | infinity _ => False

variable {c d : Scalar}

theorem Counts.arises (counts : c.Counts) : c.Arises := by
  cases c <;> trivial

theorem Counts.mul (left : c.Counts) (right : d.Counts) : (c * d).Counts := by
  cases c with
  | approx | infinity => exact left.elim
  | undefined => cases d <;> trivial
  | unsigned =>
    show (Scalar.mul unsigned d).Counts
    cases d <;> simp only [Scalar.mul] <;> first
      | trivial
      | split <;> trivial
  | exact p =>
    cases d with
    | approx | infinity => exact right.elim
    | undefined => trivial
    | unsigned =>
      show (if (exact p).isZero then undefined else unsigned : Scalar).Counts
      split <;> trivial
    | exact q =>
      refine ⟨mul_pos left.1 right.1, ?_⟩
      rw [← (Rat.den_eq_one_iff p).mp left.2, ← (Rat.den_eq_one_iff q).mp right.2, ← Int.cast_mul]
      exact Rat.den_intCast _

theorem exact_mul_unsigned (p : ℚ) : (exact p * unsigned).Arises ∧ (exact p * unsigned).isNegative = false := by
  show (if (exact p).isZero then undefined else unsigned : Scalar).Arises ∧
    (if (exact p).isZero then undefined else unsigned : Scalar).isNegative = false
  split
  · exact ⟨trivial, rfl⟩
  · exact ⟨trivial, rfl⟩

theorem counts_one : Counts 1 := ⟨by decide, by decide⟩

theorem counts_foldl_mul {cs : List Scalar} (counts : ∀ c ∈ cs, c.Counts) (start : d.Counts) :
    (cs.foldl (· * ·) d).Counts := by
  induction cs generalizing d with
  | nil => exact start
  | cons c cs ih =>
    rw [forall_mem_cons] at counts
    exact ih counts.2 (start.mul counts.1)

end Scalar

namespace Coeff

open Scalar Host Outcome

variable {names : String → Prop} {k m n : Nat}

/-! ### Code that fails for known reasons -/

def FailsOnly (reason : EmitError → Prop) (code : Code) : Prop := Meets reason (fun _ => True) code

section

variable {reason : EmitError → Prop}

theorem FailsOnly.bind {code : Code} {f : Expr → Code} (first : FailsOnly reason code)
    (next : ∀ c, FailsOnly reason (f c)) : FailsOnly reason (code >>= f) :=
  Meets.bind first fun c _ => next c

theorem failsOnly_foldl {α : Type} {step : Code → α → Code} {xs : List α}
    (kept : ∀ x ∈ xs, ∀ left, FailsOnly reason left → FailsOnly reason (step left x)) {start : Code}
    (first : FailsOnly reason start) : FailsOnly reason (xs.foldl step start) := by
  induction xs generalizing start with
  | nil => exact first
  | cons x xs ih =>
    rw [forall_mem_cons] at kept
    exact ih kept.2 (kept.1 start first)

theorem failsOnly_joinProduct {codes : List Code} (each : ∀ code ∈ codes, FailsOnly reason code) :
    FailsOnly reason (joinProduct codes) := by
  cases codes with
  | nil => trivial
  | cons first codes =>
    obtain ⟨start, rest⟩ := forall_mem_cons.mp each
    refine failsOnly_foldl (fun code mem _ before => ?_) start
    exact before.bind fun _ => (rest code mem).bind fun _ => trivial

variable {code : Coeff → Code}

theorem failsOnly_joinSum {terms : List Coeff} (each : ∀ t ∈ terms, FailsOnly reason (code t))
    (negated : ∀ t ∈ terms, FailsOnly reason (code (neg t))) : FailsOnly reason (joinSum code terms) := by
  cases terms with
  | nil => trivial
  | cons first terms =>
    obtain ⟨start, rest⟩ := forall_mem_cons.mp each
    refine failsOnly_foldl (fun t mem _ before => before.bind fun _ => ?_) start
    split
    · exact (negated t (mem_cons_of_mem first mem)).bind fun _ => trivial
    · exact (rest t mem).bind fun _ => trivial

theorem failsOnly_emitProduct {c : Scalar} {fs : List Coeff}
    (negative : c.isNegative → FailsOnly reason (code (neg (prod c fs))))
    (whole : c.isNegative = false → (prod c fs).fraction.2.isOne →
      ∀ f ∈ (prod c fs).multiplicands, FailsOnly reason (code f))
    (quotient : c.isNegative = false → (prod c fs).fraction.2.isOne = false →
      FailsOnly reason (code (prod c fs).fraction.1) ∧ FailsOnly reason (code (prod c fs).fraction.2)) :
    FailsOnly reason (emitProduct code c fs) := by
  unfold emitProduct
  cases sign : c.isNegative with
  | true => exact (negative sign).bind fun _ => trivial
  | false =>
    simp only [Bool.false_eq_true, if_false]
    cases one : (prod c fs).fraction.2.isOne with
    | true =>
      rw [if_pos rfl]
      refine failsOnly_joinProduct fun code' mem => ?_
      obtain ⟨f, inside, rfl⟩ := mem_map.mp mem
      exact whole sign one f ((orderedFactors_perm _).mem_iff.mp inside)
    | false =>
      obtain ⟨above, below⟩ := quotient sign one
      exact above.bind fun _ => below.bind fun _ => trivial

theorem failsOnly_emitPower {e b : Coeff} {n : ℤ} (parts : e.baseExponent = (b, ofInt n))
    (inverse : n < 0 → FailsOnly reason (code (inv e)))
    (power : 0 ≤ n → FailsOnly reason (code b) ∧ FailsOnly reason (code (ofInt n))) :
    FailsOnly reason (emitPower code e) := by
  unfold emitPower
  simp only [parts, toInt?_ofInt]
  split
  · rename_i negative
    exact (inverse negative).bind fun _ => trivial
  · rename_i nonneg
    obtain ⟨base, exponent⟩ := power (not_lt.mp nonneg)
    exact base.bind fun _ => exponent.bind fun _ => trivial

end

/-! ### Answers -/

/-- Why an evaluated expression has no code: a name is no expression, or a number is not finite. -/
inductive Refused (names : String → Prop) : EmitError → Prop
  | malformed {s : String} {fault : SyntaxFault} (named : names s) (unreadable : Expr.read s = .error fault) :
      Refused names (.malformed fault)
  | infinite {c : Scalar} (arises : c.Arises) (inexact : ¬ c.IsExact) : Refused names (.unsupported (num c))

/-- From a bound on, an expression has code or is refused. -/
def Answers (names : String → Prop) (m : Nat) (e : Coeff) : Prop :=
  ∀ depth, m ≤ depth → FailsOnly (Refused names) (emitDeep depth e)

variable {e b f : Coeff} {c : Scalar} {ts : List Coeff} {exponent : ℤ → Prop} {q : ℚ}

theorem Answers.mono (answers : Answers names m e) (le : m ≤ n) : Answers names n e :=
  fun depth enough => answers depth (le.trans enough)

theorem answers_succ (step : ∀ depth, m ≤ depth → FailsOnly (Refused names) (emitDeep (depth + 1) e)) :
    Answers names (m + 1) e := by
  intro depth enough
  obtain ⟨depth, rfl⟩ : ∃ d, depth = d + 1 := ⟨depth - 1, by omega⟩
  exact step depth (by omega)

theorem answers_num (arises : c.Arises) : Answers names 1 (num c) := by
  refine answers_succ (m := 0) fun depth _ => ?_
  show FailsOnly _ (emitNumber c)
  cases c with
  | exact q =>
    unfold emitNumber
    simp only
    split <;> trivial
  | unsigned => exact .infinite arises fun ⟨_, same⟩ => by cases same
  | undefined => exact .infinite arises fun ⟨_, same⟩ => by cases same
  | approx | infinity => exact arises.elim

theorem answers_sym {s : String} (named : names s) : Answers names 1 (sym s) := by
  refine answers_succ (m := 0) fun depth _ => ?_
  rw [emitDeep]
  cases read : Expr.read s with
  | ok => trivial
  | error fault => exact .malformed named read

theorem answers_read {args : List Coeff} (each : ∀ a ∈ args, Answers names m a) :
    Answers names (m + 1) (app "getcomponent" args) := by
  refine answers_succ fun depth enough => ?_
  have read := Meets.mapM fun a mem => each a mem depth enough
  exact read.bind fun _ _ => trivial

theorem answers_sum (terms : ∀ t ∈ (sum c ts).summands, Answers names m t)
    (negated : ∀ t ∈ (sum c ts).summands, Answers names m (neg t)) : Answers names (m + 1) (sum c ts) := by
  refine answers_succ fun depth enough => ?_
  have perm := orderedTerms_perm (sum c ts)
  exact failsOnly_joinSum (fun t mem => terms t (perm.mem_iff.mp mem) depth enough)
    fun t mem => negated t (perm.mem_iff.mp mem) depth enough

theorem answers_prod {fs : List Coeff} (negative : c.isNegative → Answers names m (neg (prod c fs)))
    (whole : c.isNegative = false → (prod c fs).fraction.2.isOne →
      ∀ f ∈ (prod c fs).multiplicands, Answers names m f)
    (quotient : c.isNegative = false → (prod c fs).fraction.2.isOne = false →
      Answers names m (prod c fs).fraction.1 ∧ Answers names m (prod c fs).fraction.2) :
    Answers names (m + 1) (prod c fs) := by
  refine answers_succ fun depth enough => ?_
  exact failsOnly_emitProduct (fun sign => negative sign depth enough)
    (fun sign one f mem => whole sign one f mem depth enough)
    fun sign more => ⟨(quotient sign more).1 depth enough, (quotient sign more).2 depth enough⟩

theorem answers_pow (bare : b.isBare) {n : ℤ} (positive : 1 ≤ m) (base : Answers names m b)
    (inverse : n < 0 → Answers names m (inv (pow b (ofInt n)))) : Answers names (m + 1) (pow b (ofInt n)) := by
  refine answers_succ fun depth enough => ?_
  have parts : (pow b (ofInt n)).baseExponent = (b, ofInt n) := by
    cases b <;> first | rfl | cases bare
  have power : emitDeep (depth + 1) (pow b (ofInt n)) = emitPower (emitDeep depth) (pow b (ofInt n)) := by
    cases b <;> first | rfl | cases bare
  rw [power]
  exact failsOnly_emitPower parts (fun negative => inverse negative depth enough)
    fun _ => ⟨base depth enough, answers_num (arises_ofInt n) depth (positive.trans enough)⟩

/-! ### Numerators and denominators -/

theorem mem_multiplicands {fs : List Coeff} (mem : f ∈ (prod c fs).multiplicands) : f = num c ∨ f ∈ fs := by
  unfold multiplicands at mem
  simp only at mem
  split at mem
  · exact .inr mem
  · exact mem_cons.mp mem

def Whole (names : String → Prop) (k : Nat) (f : Coeff) : Prop :=
  (∃ c : Scalar, c.Counts ∧ f = num c) ∨ PowerOf (Base names k) (0 < ·) f

theorem Whole.partOf (whole : Whole names k f) : PartOf (Base names k) (0 < ·) f :=
  whole.imp (fun ⟨c, counts, same⟩ => ⟨c, counts.arises, same⟩) id

theorem Whole.counts (whole : Whole names k (num c)) : c.Counts := by
  rcases whole with ⟨_, counts, ⟨⟩⟩ | power
  · exact counts
  · cases power.toScalar? Base.isBare

/-- Whole factors multiply to a whole number and powers with positive exponents. -/
theorem multiplied_whole {es : List Coeff} (whole : ∀ e ∈ es, Whole names k e) :
    ∃ number : Scalar, number.Counts ∧ Multiplied number (PowerOf (Base names k) (0 < ·)) (mulAll es) := by
  rcases productStep_cases (operations 39) es with one | ⟨e, mem, single⟩ | ⟨_, _, zero, -, -⟩ | many
  · exact ⟨1, counts_one, (show mulAll es = _ from one) ▸ .constant arises_one⟩
  · rw [show mulAll es = e from single]
    rcases whole e mem with ⟨c, counts, rfl⟩ | power
    · exact ⟨1, counts_one, .constant counts.arises⟩
    · exact ⟨1, counts_one, .single rfl power⟩
  · exact absurd (whole _ zero).counts.1 (lt_irrefl 0)
  · rw [show mulAll es = _ from many]
    have kept : ∀ f ∈ es.filter (!·.isOne), Whole names k f := fun f mem => whole f (mem_of_mem_filter mem)
    have taken (fuel : Nat) : takeUp (operations 39) fuel (es.filter (!·.isOne)) [] = es.filter (!·.isOne) :=
      takeUp_taken (fun f mem => isTaken_part (PartOf.isPart Base.isBare (kept f mem).partOf)) fuel []
    refine ⟨_, ?_, multiplied_multiply Base.isBare Int.one_pos (fun _ _ => Int.add_pos) (taken _) fun f mem =>
      (kept f mem).partOf⟩
    refine counts_foldl_mul (fun c mem => ?_) counts_one
    obtain ⟨f, inside, found⟩ := mem_filterMap.mp mem
    cases f with
    | num d =>
      cases found
      exact (kept _ inside).counts
    | _ => cases found

theorem fractionParts_bare (bare : b.isBare) : fractionParts b = ([b], []) := by
  cases b <;> first | rfl | cases bare

theorem fractionParts_pow (bare : b.isBare) {n : ℤ} (zero : n ≠ 0) :
    fractionParts (pow b (ofInt n)) = if 0 < n then ([pow b (ofInt n)], []) else ([], [wholePower b (-n)]) := by
  have parts : (pow b (ofInt n)).baseExponent = (b, ofInt n) := by
    cases b <;> first | rfl | cases bare
  have opposite : neg (ofInt n) = ofInt (-n) := by
    show num (.exact (-(n : ℚ))) = num (.exact ((-n : ℤ) : ℚ))
    rw [Int.cast_neg]
  unfold fractionParts
  rcases lt_or_gt_of_ne zero with negative | positive
  · have power : raise b (ofInt (-n)) = wholePower b (-n) := operations_pow_whole 39 bare (neg_ne_zero.mpr zero)
    simp only [parts, facts_ofInt, negative, decide_true, beq_self_eq_true, Bool.and_self, if_true, toInt?_ofInt,
      opposite, power, if_neg (not_lt.mpr negative.le)]
    by_cases one : n = -1
    · simp [one, wholePower]
    · simp [one]
  · simp [parts, positive, not_lt.mpr positive.le]

def Splits (names : String → Prop) (k : Nat) (parts : List Coeff × List Coeff) : Prop :=
  (∀ g ∈ parts.1, Whole names k g) ∧ ∀ g ∈ parts.2, Whole names k g

theorem splits_flatMap {parts : List (List Coeff × List Coeff)} (each : ∀ p ∈ parts, Splits names k p) :
    Splits names k (parts.flatMap (·.1), parts.flatMap (·.2)) := by
  constructor
  · rw [forall_mem_flatMap]
    exact fun p mem => (each p mem).1
  · rw [forall_mem_flatMap]
    exact fun p mem => (each p mem).2

theorem splits_factor (power : PowerOf (Base names k) exponent f) : Splits names k (fractionParts f) := by
  rcases power with own | ⟨b, n, own, -, zero, one, rfl⟩
  · rw [fractionParts_bare own.2]
    exact ⟨by simpa using .inr (.inl own), by simp⟩
  · rw [fractionParts_pow own.2 zero]
    split
    · rename_i positive
      exact ⟨by simpa using .inr (.inr ⟨b, n, own, positive, zero, one, rfl⟩), by simp⟩
    · have opposite : 0 < -n := by omega
      exact ⟨by simp, by simpa using .inr (powerOf_wholePower own opposite opposite.ne')⟩

theorem splits_num (arises : c.Arises) (nonzero : c.isZero = false) (sign : c.isNegative = false) :
    Splits names k (fractionParts (num c)) := by
  have number {d : Scalar} (counts : d.Counts) : Whole names k (num d) := .inl ⟨d, counts, rfl⟩
  cases c with
  | exact q =>
    have positive : 0 < q := by
      have nonzero : q ≠ 0 := by simpa using nonzero
      have sign : ¬ q < 0 := by simpa [isNegative] using sign
      exact lt_of_le_of_ne (not_lt.mp sign) nonzero.symm
    have integer {n : ℤ} (positive : 0 < n) : Whole names k (ofInt n) :=
      number (d := .exact n) ⟨by exact_mod_cast positive, Rat.den_intCast n⟩
    unfold fractionParts
    simp only
    split
    · rename_i one
      exact ⟨by simpa using number (d := .exact q) ⟨positive, one⟩, by simp⟩
    · have below := integer (n := q.den) (by exact_mod_cast q.den_pos)
      have above := integer (Rat.num_pos.mpr positive)
      refine ⟨?_, by simpa using below⟩
      split
      · simp
      · simpa using above
  | unsigned => exact ⟨by simpa [fractionParts] using number (d := .unsigned) trivial, by simp [fractionParts]⟩
  | undefined => exact ⟨by simpa [fractionParts] using number (d := .undefined) trivial, by simp [fractionParts]⟩
  | approx | infinity => exact arises.elim

theorem splits_multiplicands (arises : c.Arises) (nonzero : c.isZero = false)
    (sign : c.isNegative = false) {fs : List Coeff}
    (factors : ∀ f ∈ fs, PowerOf (Base names k) exponent f) :
    ∀ p ∈ (prod c fs).multiplicands.map fractionParts, Splits names k p := by
  rw [forall_mem_map]
  intro f mem
  rcases mem_multiplicands mem with rfl | inside
  · exact splits_num arises nonzero sign
  · exact splits_factor (factors f inside)

theorem fraction_whole (counts : c.Counts) {fs : List Coeff}
    (factors : ∀ f ∈ fs, PowerOf (Base names k) (0 < ·) f) : (prod c fs).fraction.2 = 1 := by
  have undivided : ((prod c fs).multiplicands.map fractionParts).flatMap (·.2) = [] := by
    rw [flatMap_map, flatMap_eq_nil_iff]
    intro f mem
    rcases mem_multiplicands mem with rfl | inside
    · cases c with
      | exact q => simp [fractionParts, counts.2]
      | _ => rfl
    · rcases factors f inside with own | ⟨b, n, own, positive, zero, -, rfl⟩
      · rw [fractionParts_bare own.2]
      · rw [fractionParts_pow own.2 zero, if_pos positive]
  unfold fraction
  simp only [undivided]
  rfl

theorem multiplicands_beside (one : q ≠ 1) (fs : List Coeff) :
    (prod (.exact q) [prod .unsigned fs]).multiplicands = [num (.exact q), prod .unsigned fs] := by
  simp [multiplicands, one]

theorem fraction_beside (one : q ≠ 1) (fs : List Coeff) : (prod (.exact q) [prod .unsigned fs]).fraction =
      if q.den = 1 then (mulAll [num (.exact q), prod .unsigned fs], 1)
      else (mulAll ((if q.num = 1 then [] else [ofInt q.num]) ++ [prod .unsigned fs]), mulAll [ofInt q.den]) := by
  have unit : mulAll [] = 1 := rfl
  by_cases whole : q.den = 1 <;> simp [fraction, multiplicands_beside one, fractionParts, whole, unit]

/-! ### Products with one more number -/

theorem filterMap_factors {fs : List Coeff}
    (factors : ∀ f ∈ fs, PowerOf (Base names k) exponent f) : fs.filterMap toScalar? = [] :=
  filterMap_eq_nil_iff.mpr fun f mem => (factors f mem).toScalar? Base.isBare

section

variable {a : Scalar} (notOne : a.isOne = false)
include notOne

theorem multiplied_pair (product : e.isProd) {fs : List Coeff}
    (taken : ∀ fuel, takeUp (operations 39) (fuel + 2) e.multiplicands [num a] = fs)
    (parts : ∀ f ∈ fs, PartOf (Base names k) (fun _ => True) f) :
    Multiplied ((fs.filterMap toScalar?).foldl (· * ·) 1) (AnyPower names k)
      (mulAll [num a, e]) := by
  have several : mulAll [num a, e] = multiply (operations 39) [num a, e] := by
    show productStep (operations 39) [num a, e] = _
    cases e with
    | prod => simp [productStep, isOne, notOne]
    | _ => cases product
  obtain ⟨fuel, enough⟩ : ∃ fuel, 4 * [num a, e].foldl (fun n e => n + e.multiplicands.length + 1) 16 = fuel + 4 := by
    rw [foldl_size]
    exact ⟨_, (Nat.sub_add_cancel (by omega)).symm⟩
  rw [several]
  refine multiplied_multiply Base.isBare trivial (fun _ _ _ _ => trivial) ?_ parts
  rw [enough, isTaken_part rfl, takeUp_prod product]
  exact taken fuel

variable (arises : a.Arises) {fs : List Coeff} (factors : ∀ f ∈ fs, AnyPower names k f)
include arises factors

theorem multiplied_scaled (own : c.Arises) (other : c.isOne = false) :
    Multiplied (1 * a * c) (AnyPower names k) (mulAll [num a, prod c fs]) := by
  have opened : (prod c fs).multiplicands = num c :: fs := by simp [multiplicands, other]
  have parts : ∀ f ∈ num a :: num c :: fs, PartOf (Base names k) (fun _ => True) f :=
    forall_mem_cons.mpr ⟨.inl ⟨a, arises, rfl⟩, forall_mem_cons.mpr ⟨.inl ⟨c, own, rfl⟩,
      fun f mem => .inr (factors f mem)⟩⟩
  have product := multiplied_pair notOne (e := prod c fs) rfl (fun fuel => ?_) parts
  · simpa [filterMap_factors factors, toScalar?] using product
  · rw [opened]
    exact takeUp_taken (fun f mem => isTaken_part (PartOf.isPart Base.isBare (parts f (.tail _ mem)))) _ _

theorem multiplied_scaled_beside (one : q ≠ 1) :
    Multiplied (1 * a * .exact q * .unsigned) (AnyPower names k)
      (mulAll [num a, prod (.exact q) [prod .unsigned fs]]) := by
  have parts : ∀ f ∈ num a :: num (.exact q) :: num .unsigned :: fs, PartOf (Base names k) (fun _ => True) f :=
    forall_mem_cons.mpr ⟨.inl ⟨a, arises, rfl⟩, forall_mem_cons.mpr ⟨.inl ⟨.exact q, trivial, rfl⟩,
      forall_mem_cons.mpr ⟨.inl ⟨.unsigned, trivial, rfl⟩, fun f mem => .inr (factors f mem)⟩⟩⟩
  have product := multiplied_pair notOne (e := prod (.exact q) [prod .unsigned fs]) rfl (fun fuel => ?_) parts
  · simpa [filterMap_factors factors, toScalar?] using product
  · rw [multiplicands_beside one, isTaken_part rfl, takeUp_prod rfl]
    exact takeUp_taken
      (fun f mem => isTaken_part (PartOf.isPart Base.isBare (parts f (.tail _ (.tail _ mem))))) _ _

end

/-! ### One level -/

section

variable (two : 2 ≤ m) (lower : ∀ j, k = j + 1 → ∀ e, Additive names j e → Answers names m e)
include two lower

theorem answers_base (own : Base names k b) : Answers names m b := by
  obtain ⟨canonical, bare⟩ := own
  cases canonical with
  | sym named => exact (answers_sym named).mono (by omega)
  | only named => exact (answers_read (by simpa using answers_sym named)).mono two
  | component named i =>
    exact (answers_read (by simpa using ⟨answers_sym named, answers_num (arises_ofInt i)⟩)).mono two
  | sum arises terms proper nonempty => exact lower _ rfl _ (.inr ⟨rfl, .sum arises terms proper nonempty⟩)
  | num | pow | prod | beside => cases bare

theorem answers_factor (power : PowerOf (Base names k) exponent f) : Answers names (m + 2) f := by
  rcases power with own | ⟨b, n, own, -, zero, -, rfl⟩
  · exact (answers_base two lower own).mono (by omega)
  have base := answers_base two lower own
  have positive {n : ℤ} (positive : 0 < n) : Answers names (m + 1) (pow b (ofInt n)) :=
    answers_pow own.2 (by omega) base fun negative => absurd negative (not_lt.mpr positive.le)
  -- the reciprocal of a negative power is a positive one, whose code only asks for the base
  refine answers_pow own.2 (by omega) (base.mono (Nat.le_succ m)) fun negative => ?_
  rw [inv_pow own.2 zero, wholePower]
  split
  · exact base.mono (Nat.le_succ m)
  · exact positive (by omega)

variable {fs : List Coeff} {number : Scalar}

theorem answers_multiplicands (arises : c.Arises) (factors : ∀ f ∈ fs, PowerOf (Base names k) exponent f) :
    ∀ f ∈ (prod c fs).multiplicands, Answers names (m + 2) f := by
  intro f mem
  rcases mem_multiplicands mem with rfl | inside
  · exact (answers_num arises).mono (by omega)
  · exact answers_factor two lower (factors f inside)

omit two in
theorem answers_distribute (zero : q ≠ 0) {d : Scalar}
    (factor : PowerOf (Base names k) exponent (sum d ts)) : Answers names m (distribute (.exact q) d ts) := by
  have canonical := factor.canonical
  cases canonical with
  | sum arises terms proper nonempty =>
    exact lower _ rfl _ (additive_distribute zero (.sum arises terms proper nonempty))

theorem answers_multiplied (enough : m + 2 ≤ n)
    (several : ∀ fs, number.isZero = false → (∀ f ∈ fs, PowerOf (Base names k) exponent f) →
      Answers names n (prod number fs))
    (product : Multiplied number (PowerOf (Base names k) exponent) e) : Answers names n e := by
  cases product with
  | constant arises => exact (answers_num arises).mono (by omega)
  | single _ factor => exact (answers_factor two lower factor).mono enough
  | several nonzero factors => exact several _ nonzero factors
  | spread exact zero factor =>
    subst exact
    exact (answers_distribute lower zero factor).mono (by omega)

theorem answers_whole (counts : number.Counts)
    (product : Multiplied number (PowerOf (Base names k) (0 < ·)) e) : Answers names (m + 3) e := by
  refine answers_multiplied two lower (by omega) (fun fs _ factors => ?_) product
  have sign : number.isNegative = false := by
    cases number with
    | exact q => simpa [isNegative] using counts.1.le
    | _ => first | rfl | exact counts.elim
  refine answers_prod (by simp [sign]) (fun _ _ => answers_multiplicands two lower counts.arises factors)
    fun _ more => ?_
  rw [fraction_whole counts factors] at more
  cases more

theorem answers_positive (arises : number.Arises) (sign : number.isNegative = false)
    (product : Multiplied number (PowerOf (Base names k) exponent) e) :
    Answers names (m + 4) e := by
  refine answers_multiplied two lower (by omega) (fun fs nonzero factors => ?_) product
  have parts := answers_multiplicands two lower arises factors
  refine answers_prod (by simp [sign]) (fun _ _ f mem => (parts f mem).mono (by omega)) fun _ _ => ?_
  -- the numerator and the denominator are whole, so neither is divided again
  obtain ⟨above, below⟩ := splits_flatMap (splits_multiplicands arises nonzero sign factors)
  obtain ⟨_, counts, numerator⟩ := multiplied_whole above
  obtain ⟨_, counts', denominator⟩ := multiplied_whole below
  exact ⟨answers_whole two lower counts numerator, answers_whole two lower counts' denominator⟩

theorem answers_prod_factors (arises : c.Arises) (nonzero : c.isZero = false)
    (factors : ∀ f ∈ fs, AnyPower names k f) (nonempty : fs ≠ [])
    (several : c.isOne → 2 ≤ fs.length) (alone : c ≠ .unsigned → ∀ f, fs = [f] → f.isTerm) :
    Answers names (m + 5) (prod c fs) := by
  cases sign : c.isNegative with
  | false =>
    exact (answers_positive two lower arises sign (.several nonzero factors nonempty several alone)).mono (by omega)
  | true =>
    refine answers_prod (fun _ => ?_) (by simp [sign]) (by simp [sign])
    cases c with
    | exact q =>
      have negative : q < 0 := by simpa [isNegative] using sign
      have other : Scalar.isOne (.exact q) = false := by simp [(negative.trans one_pos).ne]
      have size : (1 * Scalar.ofInt (-1) * .exact q).Arises := trivial
      refine answers_positive two lower size ?_ (multiplied_scaled (a := .ofInt (-1)) rfl trivial factors arises other)
      simpa [Scalar.one_eq, Scalar.ofInt, exact_mul, isNegative] using negative.le
    | unsigned | undefined => cases sign
    | approx | infinity => exact arises.elim

theorem answers_beside (one : q ≠ 1)
    (factors : ∀ f ∈ fs, AnyPower names k f) (nonempty : fs ≠ []) :
    Answers names (m + 5) (prod (.exact q) [prod .unsigned fs]) := by
  have unbounded : Scalar.Arises .unsigned := trivial
  have infinite : Answers names (m + 4) (prod .unsigned fs) :=
    answers_positive two lower unbounded rfl (.several rfl factors nonempty (by simp [Scalar.isOne]) (absurd rfl))
  refine answers_prod (fun _ => ?_) (fun _ _ f mem => ?_) fun _ more => ?_
  · obtain ⟨arises, sign⟩ := exact_mul_unsigned (1 * ((-1 : ℤ) : ℚ) * q)
    exact answers_positive two lower arises sign
      (multiplied_scaled_beside (a := .ofInt (-1)) rfl trivial factors one)
  · rw [multiplicands_beside one] at mem
    rcases mem_cons.mp mem with rfl | mem
    · exact (answers_num (c := .exact q) trivial).mono (by omega)
    · rwa [mem_singleton.mp mem]
  · rw [fraction_beside one] at more ⊢
    split at more
    · cases more
    · rename_i fractional
      have below : ∀ e ∈ [ofInt q.den], Whole names k e := by
        simpa using .inl ⟨.exact q.den, ⟨by exact_mod_cast q.den_pos, Rat.den_intCast q.den⟩, rfl⟩
      obtain ⟨_, counts, denominator⟩ := multiplied_whole below
      rw [if_neg fractional]
      refine ⟨?_, (answers_whole two lower counts denominator).mono (by omega)⟩
      simp only
      split
      · exact infinite
      · rename_i differ
        obtain ⟨arises, sign⟩ := exact_mul_unsigned (1 * (q.num : ℚ))
        have other : (Scalar.ofInt q.num).isOne = false := by simpa [Scalar.ofInt] using differ
        exact answers_positive two lower arises sign (multiplied_scaled other trivial factors unbounded rfl)

theorem Canonical.answers_step (canonical : Canonical names k e) : Answers names (m + 5) e := by
  cases canonical with
  | num arises => exact (answers_num arises).mono (by omega)
  | sym named => exact (answers_base two lower ⟨.sym named, rfl⟩).mono (by omega)
  | only named => exact (answers_base two lower ⟨.only named, rfl⟩).mono (by omega)
  | component named i => exact (answers_base two lower ⟨.component named i, rfl⟩).mono (by omega)
  | pow base bare zero one =>
    exact (answers_factor two lower ((Canonical.pow base bare zero one).powerOf bare)).mono (by omega)
  | prod arises nonzero factors plain nonempty several alone =>
    exact answers_prod_factors two lower arises nonzero (fun f mem => (factors f mem).powerOf (plain f mem))
      nonempty several alone
  | beside _ one factors plain nonempty =>
    exact answers_beside two lower one (fun f mem => (factors f mem).powerOf (plain f mem)) nonempty
  | sum arises terms proper nonempty =>
    exact (lower _ rfl _ (.inr ⟨rfl, .sum arises terms proper nonempty⟩)).mono (by omega)

theorem Additive.answers_step (additive : Additive names k e) : Answers names (m + 6) e := by
  have parts := additive.summands
  rcases additive with canonical | ⟨isSum, -⟩
  · exact (canonical.answers_step two lower).mono (by omega)
  · cases e with
    | sum c ts =>
      -- a term after the first is written with the opposite sign where its number is negative
      exact answers_sum (fun t mem => (parts t mem).1.answers_step two lower)
        fun t mem => (parts t mem).1.neg.answers_step two lower
    | _ => cases isSum

end

/-! ### All levels -/

/-- Six steps are enough for each level of sums. -/
theorem Additive.answers (additive : Additive names k e) : Answers names (6 * k + 8) e := by
  induction k generalizing e with
  | zero => exact additive.answers_step (m := 2) le_rfl fun j zero => by omega
  | succ k ih =>
    refine additive.answers_step (m := 6 * k + 8) (by omega) fun j same e additive => ?_
    obtain rfl : k = j := by omega
    exact ih additive

theorem depth_le_foldl {fs : List Coeff} (mem : f ∈ fs) :
    f.depth ≤ fs.attach.foldl (fun d ⟨f, _⟩ => max d f.depth) 0 := by
  rw [foldl_attach (f := fun d f => max d (depth f))]
  have grows (fs : List Coeff) (d : Nat) : d ≤ fs.foldl (fun d f => max d f.depth) d ∧
      ∀ f ∈ fs, f.depth ≤ fs.foldl (fun d f => max d f.depth) d := by
    induction fs generalizing d with
    | nil => simp
    | cons f fs ih =>
      obtain ⟨start, rest⟩ := ih (max d f.depth)
      exact ⟨(le_max_left d _).trans start, forall_mem_cons.mpr ⟨(le_max_right d _).trans start, rest⟩⟩
  exact (grows fs 0).2 f mem

theorem depth_lt_prod {fs : List Coeff} (mem : f ∈ fs) : f.depth < (prod c fs).depth := by
  rw [depth]
  exact Nat.lt_succ_of_le (depth_le_foldl mem)

/-- The nesting of an expression bounds the level of its sums. -/
theorem Canonical.at_depth (canonical : Canonical names k e) : Canonical names e.depth e := by
  induction canonical with
  | num arises => exact .num arises
  | sym named => exact .sym named
  | only named => exact .only named
  | component named i => exact .component named i
  | pow _ bare zero one ih =>
    rw [depth]
    exact .pow (ih.mono (by omega)) bare zero one
  | prod arises nonzero _ plain nonempty several alone ih =>
    exact .prod arises nonzero (fun f mem => (ih f mem).mono (depth_lt_prod mem).le) plain nonempty several alone
  | beside zero one _ plain nonempty ih =>
    refine .beside zero one (fun f mem => (ih f mem).mono ?_) plain nonempty
    exact ((depth_lt_prod (c := .unsigned) mem).trans (depth_lt_prod (mem_singleton_self _))).le
  | sum arises _ proper nonempty ih =>
    rw [depth]
    exact .sum arises (fun t mem => (ih t mem).mono (depth_le_foldl mem)) proper nonempty

/-- Evaluated expressions have code or are refused, within the bound that their nesting gives. -/
theorem Canonical.failsOnly_emit (canonical : Canonical names k e) : FailsOnly (Refused names) e.emit :=
  Additive.answers (.inl canonical.at_depth) _ (by omega)

/-! ### Expressions with a value -/

def RefusesNoExact (error : EmitError) : Prop := ∀ c, error = .unsupported (num c) → c.IsExact

/-- An expression with a value is not refused for a number: the sign, the numerator, the denominator and the reciprocal
that its code asks for have values as well. -/
theorem Defined.failsOnly {r : Reading} (depth : Nat) (defined : Defined r e) :
    FailsOnly RefusesNoExact (emitDeep depth e) := by
  -- the source of a read is not asked for a value, so names are taken apart from the induction
  have name (depth : Nat) (s : String) : FailsOnly RefusesNoExact (emitDeep depth (Coeff.sym s)) := by
    cases depth with
    | zero => rintro c ⟨⟩
    | succ depth =>
      rw [emitDeep]
      cases Expr.read s with
      | ok => trivial
      | error => rintro c ⟨⟩
  induction depth generalizing e with
  | zero =>
    rintro c ⟨⟩
    cases defined with
    | num q => exact ⟨q, rfl⟩
  | succ depth ih =>
    have read {args : List Coeff} (each : ∀ a ∈ args, FailsOnly RefusesNoExact (emitDeep depth a)) :
        FailsOnly RefusesNoExact (emitDeep (depth + 1) (app "getcomponent" args)) :=
      (Meets.mapM each).bind fun _ _ => trivial
    cases defined with
    | num q =>
      show FailsOnly _ (emitNumber (.exact q))
      unfold emitNumber
      simp only
      split <;> trivial
    | sym => exact name _ _
    | only s => exact read (by simpa using name depth s)
    | component s i => exact read (by simpa using ⟨name depth s, ih (.num i)⟩)
    | @pow b n base nonzero =>
      have whole : Defined r (Coeff.pow b (ofInt n)) := .pow base nonzero
      have power : emitDeep (depth + 1) (Coeff.pow b (ofInt n)) = emitPower (emitDeep depth) (Coeff.pow b (ofInt n)) := by
        cases base <;> rfl
      have parts := whole.baseExponent
      obtain ⟨m, exponent, below, differ⟩ := parts.defined.of_pow
      rw [power]
      refine failsOnly_emitPower (Prod.ext rfl exponent) (fun negative => ?_) fun _ => ⟨ih below, ih (.num m)⟩
      have value_eq := parts.value_eq
      rw [exponent, value_pow] at value_eq
      exact ih (whole.means.inv (value_eq ▸ zpow_ne_zero m (differ negative))).defined
    | prod q factors =>
      have whole : Defined r (Coeff.prod (.exact q) _) := .prod q factors
      obtain ⟨x, y, numerator, denominator, -, -⟩ := whole.fraction
      exact failsOnly_emitProduct (fun _ => ih whole.means.neg.defined)
        (fun _ _ f mem => ih (whole.multiplicands.1 f mem))
        fun _ _ => ⟨ih numerator.defined, ih denominator.defined⟩
    | @sum ts q terms =>
      obtain ⟨parts, -⟩ := (Defined.sum (r := r) q terms).summands
      have perm := orderedTerms_perm (Coeff.sum (.exact q) ts)
      exact failsOnly_joinSum (fun t mem => ih (parts t (perm.mem_iff.mp mem)))
        fun t mem => ih (parts t (perm.mem_iff.mp mem)).means.neg.defined

end Coeff

end Bladewright
