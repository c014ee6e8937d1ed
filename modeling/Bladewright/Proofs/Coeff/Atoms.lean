import Bladewright.Coeff.Arithmetic
import Bladewright.Proofs.Coeff.Sum

/-!
The atoms of an expression are the names and the applications in it that stand in no other application.
-/
namespace Bladewright.Coeff

open List Numeral

/-- The atoms of an expression have a property. -/
inductive Over (P : Coeff → Prop) : Coeff → Prop
  | num (c : Scalar) : Over P (num c)
  | const (c : Constant) : Over P (const c)
  | sym {s : String} (own : P (sym s)) : Over P (sym s)
  | app {f : String} {args : List Coeff} (own : P (app f args)) : Over P (app f args)
  | pow {b e : Coeff} (base : Over P b) (exponent : Over P e) : Over P (pow b e)
  | prod (c : Scalar) {fs : List Coeff} (factors : ∀ f ∈ fs, Over P f) : Over P (prod c fs)
  | sum (c : Scalar) {ts : List Coeff} (terms : ∀ t ∈ ts, Over P t) : Over P (sum c ts)

variable {P : Coeff → Prop}

attribute [simp] Over.num Over.const

variable {Q : Coeff → Prop} {args fs es terms factors : List Coeff} {b a : Coeff} {c : Scalar} {p : Prop}

theorem Over.imp {e : Coeff} (made : Over P e) (weaker : ∀ a, P a → Q a) : Over Q e := by
  induction made with
  | num c => exact .num c
  | const c => exact .const c
  | sym own => exact .sym (weaker _ own)
  | app own => exact .app (weaker _ own)
  | pow _ _ base exponent => exact .pow base exponent
  | prod c _ factors => exact .prod c factors
  | sum c _ terms => exact .sum c terms

@[simp] theorem over_sym {s : String} : Over P (sym s) ↔ P (sym s) := by
  refine ⟨fun made => ?_, .sym⟩
  cases made with
  | sym own => exact own

@[simp] theorem over_app {f : String} : Over P (app f args) ↔ P (app f args) := by
  refine ⟨fun made => ?_, .app⟩
  cases made with
  | app own => exact own

@[simp] theorem over_pow {e : Coeff} : Over P (pow b e) ↔ Over P b ∧ Over P e := by
  refine ⟨fun made => ?_, fun both => .pow both.1 both.2⟩
  cases made with
  | pow base exponent => exact ⟨base, exponent⟩

@[simp] theorem over_prod : Over P (prod c fs) ↔ ∀ f ∈ fs, Over P f := by
  refine ⟨fun made => ?_, .prod c⟩
  cases made with
  | prod _ factors => exact factors

@[simp] theorem over_sum {ts : List Coeff} : Over P (sum c ts) ↔ ∀ t ∈ ts, Over P t := by
  refine ⟨fun made => ?_, .sum c⟩
  cases made with
  | sum _ terms => exact terms

@[simp] theorem over_ofInt (n : ℤ) : Over P (ofInt n) := .num _

@[simp] theorem over_ofRat (q : ℚ) : Over P (ofRat q) := .num _

@[simp] theorem over_zero : Over P 0 := .num _

@[simp] theorem over_one : Over P 1 := .num _

theorem Over.and {e : Coeff} (left : Over P e) (right : Over Q e) : Over (fun a => P a ∧ Q a) e := by
  induction left with
  | num c => exact .num c
  | const c => exact .const c
  | sym own => exact .sym ⟨own, over_sym.mp right⟩
  | app own => exact .app ⟨own, over_app.mp right⟩
  | pow _ _ base exponent => exact .pow (base (over_pow.mp right).1) (exponent (over_pow.mp right).2)
  | prod c _ factors => exact .prod c fun f mem => factors f mem (over_prod.mp right f mem)
  | sum c _ terms => exact .sum c fun t mem => terms t mem (over_sum.mp right t mem)

theorem over_names {names : String → Prop} :
    ∀ {e : Coeff}, Over (fun a => ∀ s ∈ a.symbols, names s) e ↔ ∀ s ∈ e.symbols, names s
  | num c | const c => by simp [symbols]
  | sym s | app f args => by simp
  | pow b e => by simp [symbols, over_names (e := b), over_names (e := e), or_imp, forall_and]
  | prod c fs => by
    rw [over_prod]
    refine ⟨fun each s mem => ?_, fun each f mem => ?_⟩
    · obtain ⟨f, listed, named⟩ := mem_symbols_prod.mp mem
      exact over_names.mp (each f listed) s named
    · exact over_names.mpr fun s named => each s (mem_symbols_prod.mpr ⟨f, mem, named⟩)
  | sum c ts => by
    rw [over_sum]
    refine ⟨fun each s mem => ?_, fun each t mem => ?_⟩
    · obtain ⟨t, listed, named⟩ := mem_symbols_sum.mp mem
      exact over_names.mp (each t listed) s named
    · exact over_names.mpr fun s named => each s (mem_symbols_sum.mpr ⟨t, mem, named⟩)

theorem over_ite [Decidable p] (left : Over P a) (right : Over P b) : Over P (if p then a else b) := by
  split
  · exact left
  · exact right

theorem over_of_ite [Decidable p] {a b : Option Coeff} (left : ∀ w, a = some w → Over P w)
    (right : ∀ w, b = some w → Over P w) : ∀ w, (if p then a else b) = some w → Over P w := by
  split
  · exact left
  · exact right

/-! ### Taking expressions apart -/

section

variable {e : Coeff} (made : Over P e)
include made

theorem over_splitNumber : Over P e.splitNumber.2 := by
  unfold splitNumber
  repeat' split
  all_goals simp_all

theorem over_withNumber (c : Scalar) : Over P (withNumber c e) := by
  unfold withNumber
  repeat' split
  all_goals simp_all

theorem over_scaleTerm (c : Scalar) : Over P (scaleTerm c e) := by
  unfold scaleTerm
  dsimp only
  repeat' split
  all_goals simp_all [over_withNumber]

theorem over_summands : ∀ t ∈ e.summands, Over P t := by
  unfold summands
  repeat' split
  all_goals simp_all

theorem over_multiplicands : ∀ f ∈ e.multiplicands, Over P f := by
  unfold multiplicands
  repeat' split
  all_goals simp_all

end

theorem over_arrange : (∀ e ∈ arrange es, Over P e) ↔ ∀ e ∈ es, Over P e :=
  forall_congr' fun _ => imp_congr_left (arrange_perm es).mem_iff

theorem over_oppositeExponent {e : Coeff} (made : Over P e) : Over P (oppositeExponent e) := by
  unfold oppositeExponent
  split
  · rw [over_sum, over_arrange, forall_mem_map]
    exact fun t mem => over_scaleTerm (over_sum.mp made t mem) _
  · exact over_scaleTerm made _

theorem over_baseExponent {e : Coeff} (made : Over P e) : Over P e.baseExponent.1 ∧ Over P e.baseExponent.2 := by
  unfold baseExponent
  repeat' split
  all_goals simp_all [over_oppositeExponent]

/-! ### Sums -/

theorem over_mergeTerms {terms : List (Scalar × Coeff)} (made : ∀ t ∈ terms, Over P t.2) :
    ∀ t ∈ mergeTerms terms, Over P t.2 := by
  have go (c : Scalar) (e : Coeff) (rest : List (Scalar × Coeff)) (first : Over P e) (made : ∀ t ∈ rest, Over P t.2) :
      ∀ t ∈ mergeTerms.go c e rest, Over P t.2 := by
    induction rest generalizing c e with
    | nil => simpa [mergeTerms.go] using first
    | cons t rest ih =>
      rw [forall_mem_cons] at made
      unfold mergeTerms.go
      split
      · exact ih _ e first made.2
      · exact forall_mem_cons.mpr ⟨first, ih _ _ made.1 made.2⟩
  cases terms with
  | nil => exact made
  | cons t terms => exact go _ _ _ (made t mem_cons_self) fun t mem => made t (mem_cons_of_mem _ mem)

theorem over_ofTerms (c : Scalar) (made : ∀ t ∈ terms, Over P t) : Over P (ofTerms c terms) := by
  unfold ofTerms
  repeat' split
  all_goals simp_all

theorem over_collect (made : ∀ e ∈ args, Over P e) : Over P (collect args) := by
  have merged : ∀ t ∈ mergeTerms (sortTerms ((args.filter (·.toScalar?.isNone)).map splitNumber)), Over P t.2 := by
    refine over_mergeTerms fun t mem => ?_
    rw [(sortTerms_perm _).mem_iff, mem_map] at mem
    obtain ⟨e, kept, rfl⟩ := mem
    exact over_splitNumber (made e (mem_of_mem_filter kept))
  have kept : ∀ t ∈ ((mergeTerms (sortTerms ((args.filter (·.toScalar?.isNone)).map splitNumber))).filter
      (!·.1.isZero)).map fun t => withNumber t.1 t.2, Over P t := by
    rw [forall_mem_map]
    exact fun t mem => over_withNumber (merged t (mem_of_mem_filter mem)) _
  unfold collect
  dsimp only
  split
  · exact .num _
  refine over_ofTerms _ (over_arrange.mpr ?_)
  split
  · exact kept
  · exact fun t mem => kept t (mem_of_mem_filter mem)

theorem over_openSums (made : ∀ e ∈ args, Over P e) : ∀ e ∈ openSums args, Over P e := by
  rw [openSums, forall_mem_append]
  refine ⟨fun e mem => made e (mem_of_mem_filter mem), fun e mem => ?_⟩
  obtain ⟨s, listed, part⟩ := mem_flatMap.mp mem
  exact over_summands (made s (mem_of_mem_filter listed)) e part

theorem over_addAll (made : ∀ e ∈ args, Over P e) : Over P (addAll args) := by
  unfold addAll
  generalize filtered : args.filter _ = kept
  have made : ∀ e ∈ kept, Over P e := fun e mem => made e (mem_of_mem_filter (filtered ▸ mem))
  split
  · exact .num _
  · exact made _ mem_cons_self
  · exact over_collect (over_openSums made)

theorem over_add (left : Over P a) (right : Over P b) : Over P (add a b) := by
  unfold add
  split
  · exact .num _
  · exact over_addAll (by simp [left, right])

theorem over_distribute (c d : Scalar) (made : ∀ t ∈ terms, Over P t) : Over P (distribute c d terms) := by
  refine over_addAll (forall_mem_cons.mpr ⟨.num _, ?_⟩)
  exact forall_mem_map.mpr fun t mem => over_scaleTerm (made t mem) c

/-! ### Powers of numbers and constants -/

structure Operations.MakesNone (P : Coeff → Prop) (ops : Operations) : Prop where
  mul {es : List Coeff} : (∀ e ∈ es, Over P e) → Over P (ops.mul es)
  pow {b e : Coeff} : Over P b → Over P e → Over P (ops.pow b e)

theorem over_ofParts (re im : ℚ) : Over P (ofParts re im) := by
  unfold ofParts
  refine over_add ?_ ?_
  all_goals split <;> simp

theorem over_ofComplex (re im : ℚ) : Over P (ofComplex re im) := by
  unfold ofComplex
  refine over_add (.num _) ?_
  repeat' split
  all_goals simp

theorem over_besideNumber (q : ℚ) {e : Coeff} (made : Over P e) : Over P (besideNumber q e) := by
  unfold besideNumber
  split
  all_goals simp [made]

theorem over_infinitePower (e : Coeff) : ∀ w, infinitePower e = some w → Over P w := by
  unfold infinitePower
  dsimp only
  repeat' split
  · simp
  · simp
  · intro w found
    obtain ⟨z, -, rfl⟩ := Option.map_eq_some_iff.mp found
    repeat' split
    all_goals simp
  · simp

theorem over_imaginaryPower (e : Coeff) : ∀ w, imaginaryPower e = some w → Over P w := by
  unfold imaginaryPower
  dsimp only
  repeat' split
  all_goals simp

theorem over_expComplex? (e : Coeff) : ∀ w, expComplex? e = some w → Over P w := by
  intro w found
  unfold expComplex? at found
  simp only [Option.bind_eq_bind, Option.bind_eq_some_iff] at found
  obtain ⟨parts, -, found⟩ := found
  split at found
  · obtain ⟨z, -, found⟩ := Option.bind_eq_some_iff.mp found
    obtain ⟨z', -, found⟩ := Option.bind_eq_some_iff.mp found
    cases found
    exact over_ofParts _ _
  · cases found

def OverPowers (P : Coeff → Prop) (powers : List (Coeff × Coeff)) : Prop := ∀ p ∈ powers, Over P p.1 ∧ Over P p.2

structure Sorted.IsOver (P : Coeff → Prop) (s : Sorted) : Prop where
  numeric : OverPowers P s.numeric
  powers : OverPowers P s.powers

theorem Sorted.isOver_take (ops : Operations) {s : Sorted} (sorted : s.IsOver P) {factor : Coeff} (own : Over P factor) :
    (s.take ops factor).IsOver P := by
  have parts := over_baseExponent own
  have numeric {c : Scalar} {x : Coeff} (found : factor.baseExponent = (num c, x)) :
      OverPowers P ((num c, x) :: s.numeric) := by
    rw [found] at parts
    exact forall_mem_cons.mpr ⟨parts, sorted.numeric⟩
  have powers {b x : Coeff} (found : factor.baseExponent = (b, x)) : OverPowers P ((b, x) :: s.powers) := by
    rw [found] at parts
    exact forall_mem_cons.mpr ⟨parts, sorted.powers⟩
  unfold Sorted.take
  split
  · exact ⟨sorted.numeric, sorted.powers⟩
  · exact ⟨sorted.numeric, sorted.powers⟩
  split
  · split
    · split
      · exact ⟨sorted.numeric, sorted.powers⟩
      · exact ⟨sorted.numeric, powers ‹_›⟩
    · exact ⟨sorted.numeric, sorted.powers⟩
  · split
    · exact ⟨numeric ‹_›, sorted.powers⟩
    · exact ⟨sorted.numeric, powers ‹_›⟩
  · exact ⟨sorted.numeric, powers ‹_›⟩

theorem over_gatherPower {powers : List (Coeff × List (Coeff × Scalar))}
    (made : ∀ p ∈ powers, Over P p.1 ∧ ∀ t ∈ p.2, Over P t.1) {e : Coeff} (base : Over P b) (exponent : Over P e) :
    ∀ p ∈ gatherPower powers b e, Over P p.1 ∧ ∀ t ∈ p.2, Over P t.1 := by
  have rest := over_splitNumber exponent
  have merged {es : List (Coeff × Scalar)} (each : ∀ t ∈ es, Over P t.1) {t : Coeff} (own : Over P t) (c : Scalar) :
      ∀ t' ∈ gatherPower.gatherExponent es t c, Over P t'.1 := by
    induction es with
    | nil => simpa [gatherPower.gatherExponent] using own
    | cons t' es ih =>
      rw [forall_mem_cons] at each
      unfold gatherPower.gatherExponent
      split
      · exact forall_mem_cons.mpr each
      · exact forall_mem_cons.mpr ⟨each.1, ih each.2⟩
  induction powers with
  | nil => simpa [gatherPower] using ⟨base, rest⟩
  | cons p powers ih =>
    rw [forall_mem_cons] at made
    unfold gatherPower
    dsimp only
    split
    · exact forall_mem_cons.mpr ⟨⟨made.1.1, merged made.1.2 rest _⟩, made.2⟩
    · exact forall_mem_cons.mpr ⟨made.1, ih made.2⟩

theorem over_ofFactors (c : Scalar) (made : ∀ f ∈ factors, Over P f) : Over P (ofFactors c factors) := by
  unfold ofFactors
  split
  · exact .num _
  · have terms := over_sum.mp (made _ mem_cons_self)
    repeat' split
    · exact .sum _ terms
    · exact over_distribute _ _ terms
    · exact .prod _ made
  · split
    · exact made _ mem_cons_self
    · exact .prod _ made
  · exact .prod _ made

theorem over_settleNumber (number : Scalar) (made : ∀ f ∈ factors, Over P f) :
    Over P (settleNumber number factors) := by
  have finish (number : Scalar) {factors : List Coeff} (made : ∀ f ∈ factors, Over P f) :
      Over P (if (factors.filterMap toScalar?).foldl (· * ·) number = .undefined then num .undefined
        else ofFactors ((factors.filterMap toScalar?).foldl (· * ·) number)
          (arrange (factors.filter (·.toScalar?.isNone)))) := by
    split
    · exact .num _
    · exact over_ofFactors _ (over_arrange.mpr fun f mem => made f (mem_of_mem_filter mem))
  unfold settleNumber
  dsimp only
  split
  · exact .num _
  · refine finish _ fun f mem => ?_
    obtain ⟨known, kept, rfl⟩ := mem_map.mp mem
    obtain ⟨f, listed, rfl⟩ := mem_map.mp (mem_of_mem_filter kept)
    exact made f listed
  · exact finish _ fun f mem => made f (mem_of_mem_filter mem)
  · split
    · split <;> exact .num _
    · exact finish _ made

theorem isOver_sortFactors (ops : Operations) (made : ∀ f ∈ factors, Over P f) :
    (sortFactors ops factors).IsOver P := by
  have folded (s : Sorted) (sorted : s.IsOver P) : (factors.foldl (Sorted.take ops) s).IsOver P := by
    induction factors generalizing s with
    | nil => exact sorted
    | cons f factors ih =>
      rw [forall_mem_cons] at made
      exact ih made.2 _ (Sorted.isOver_take ops sorted made.1)
  obtain ⟨numeric, powers⟩ := folded {} ⟨by simp [OverPowers], by simp [OverPowers]⟩
  exact ⟨fun p mem => numeric p (mem_reverse.mp mem), fun p mem => powers p (mem_reverse.mp mem)⟩

section

variable {ops : Operations} (makes : ops.MakesNone P)
include makes

theorem over_times (left : Over P a) (right : Over P b) : Over P (ops.times a b) := by
  unfold Operations.times
  split
  · exact .num _
  · exact makes.mul (by simp [left, right])

variable {e x : Coeff} {powers : List (Coeff × Coeff)}

theorem over_opposite (made : Over P e) : Over P (ops.opposite e) := by
  unfold Operations.opposite
  split
  · exact .num _
  · exact makes.mul (by simp [made])

theorem over_signPower (e : ℚ) : ∀ w, signPower ops e = some w → Over P w := by
  unfold signPower
  repeat' split
  all_goals simp [makes.pow, over_times makes]

theorem over_integerRoot (n : ℤ) (e : ℚ) : ∀ w, integerRoot ops n e = some w → Over P w := by
  have root {b : Coeff} (own : Over P b) (q : ℚ) : Over P (ops.pow b (ofRat q)) := makes.pow own (.num _)
  have radicals (rs : List (Nat × Nat × Nat)) (acc : Coeff) (own : Over P acc) : Over P (rs.foldl (fun acc r =>
      ops.times acc (ops.pow (ofInt r.1) (ofRat ((r.2.1 : ℚ) / r.2.2)))) acc) := by
    induction rs generalizing acc with
    | nil => exact own
    | cons r rs ih => exact ih _ (over_times makes own (root (.num _) _))
  unfold integerRoot
  split
  · simp [over_times makes, root]
  split
  · split <;> simp [over_times makes, root]
  intro w found
  obtain ⟨r, -, rfl⟩ := Option.map_eq_some_iff.mp found
  refine over_times makes (over_times makes (over_times makes (.num _) (radicals _ _ (.num _))) (root (.num _) _)) ?_
  split
  · exact root (.num _) _
  · exact .num _

theorem over_fractionRoot (b e : ℚ) : Over P (fractionRoot ops b e) := by
  unfold fractionRoot
  dsimp only
  repeat' split
  all_goals apply_rules [over_times makes, makes.pow, Over.num]

theorem over_zeroPower (made : Over P e) : ∀ w, zeroPower ops e = some w → Over P w := by
  have rest := over_splitNumber made
  unfold zeroPower
  dsimp only
  repeat' split
  all_goals simp [makes.pow, rest]

theorem over_approxBase (e : Coeff) (b : ℚ) : ∀ w, approxBase e b ops = some w → Over P w := by
  have finite (b e : ℚ) : Over P (approxBase.finite b e) := by
    unfold approxBase.finite
    split
    · exact .num _
    · exact over_ofParts _ _
  unfold approxBase
  dsimp only
  repeat' split
  all_goals simp [over_times makes, finite]

theorem over_negativeInfinitePower (made : Over P e) : ∀ w, negativeInfinitePower ops e = some w → Over P w := by
  unfold negativeInfinitePower
  dsimp only
  repeat' split
  all_goals simp [makes.pow, over_times makes, made]

theorem over_numberPower (c : Scalar) (made : Over P e) : ∀ w, numberPower ops c e = some w → Over P w := by
  unfold numberPower
  split
  · simp
  · split
    · rintro w ⟨⟩
      split <;> simp
    · simp
  · exact over_infinitePower e
  · exact over_negativeInfinitePower makes made
  · exact over_approxBase makes e _
  split
  · exact over_zeroPower makes made
  split
  · repeat' split
    · simp
    · exact over_signPower makes _
    · exact over_integerRoot makes _ _
    · simp [over_fractionRoot makes]
  · exact over_approxBase makes _ _
  · repeat' split
    all_goals simp [makes.pow]
  · simp

theorem over_expTerm (made : Over P e) : ∀ w, expTerm ops e = some w → Over P w := by
  unfold expTerm
  dsimp only
  repeat' split
  all_goals simp [makes.mul]

theorem over_expPower (made : Over P e) : ∀ w, expPower ops e = some w → Over P w := by
  unfold expPower
  split
  · split
    · rintro w ⟨⟩
      exact over_expComplex? _ _ ‹_›
    dsimp only
    generalize listed : List.map _ _ = parts
    have each : ∀ part ∈ parts, (∀ w, part.1 = some w → Over P w) ∧ ∀ w, part.2 = some w → Over P w := by
      rw [← listed, forall_mem_map]
      intro t mem
      have own := over_summands made t mem
      have term := over_expTerm makes own
      repeat' split
      all_goals simp_all
    split
    · simp
    rintro w ⟨⟩
    refine over_times makes (makes.mul fun e mem => ?_) (.pow (.const _) (over_addAll fun e mem => ?_))
    · obtain ⟨part, listed, out⟩ := mem_filterMap.mp mem
      exact (each part listed).1 e out
    · obtain ⟨part, listed, out⟩ := mem_filterMap.mp mem
      exact (each part listed).2 e out
  · exact over_expTerm makes made

/-! ### Products -/

theorem over_takeUp (fuel : Nat) {queue taken : List Coeff} (waiting : ∀ e ∈ queue, Over P e)
    (done : ∀ e ∈ taken, Over P e) : ∀ e ∈ takeUp ops fuel queue taken, Over P e := by
  induction fuel generalizing queue taken with
  | zero => simpa [takeUp, or_imp, forall_and] using ⟨done, waiting⟩
  | succ fuel ih =>
    cases queue with
    | nil => simpa [takeUp] using done
    | cons e queue =>
      rw [forall_mem_cons] at waiting
      obtain ⟨own, others⟩ := waiting
      have taking : ∀ f ∈ takeUp ops fuel queue (e :: taken), Over P f :=
        ih others (forall_mem_cons.mpr ⟨own, done⟩)
      unfold takeUp
      split
      · exact ih (forall_mem_append.mpr ⟨others, over_multiplicands own⟩) done
      · split
        · rename_i b q parts
          split
          · have base := (over_baseExponent own).1
            rw [parts] at base
            exact ih (forall_mem_append.mpr ⟨others, by simpa using makes.pow base (.num _)⟩) done
          · exact taking
        · exact taking
      · exact taking

theorem over_gather (made : OverPowers P powers) : OverPowers P (gather ops powers) := by
  have folded (acc : List (Coeff × List (Coeff × Scalar))) (each : ∀ p ∈ acc, Over P p.1 ∧ ∀ t ∈ p.2, Over P t.1) :
      ∀ p ∈ powers.foldl (fun acc p => gatherPower acc p.1 p.2) acc, Over P p.1 ∧ ∀ t ∈ p.2, Over P t.1 := by
    induction powers generalizing acc with
    | nil => exact each
    | cons p powers ih =>
      rw [OverPowers, forall_mem_cons] at made
      exact ih made.2 _ (over_gatherPower each made.1.1 made.1.2)
  intro p mem
  obtain ⟨q, listed, mem⟩ := mem_flatMap.mp mem
  obtain ⟨t, part, rfl⟩ := mem_map.mp mem
  have own := folded [] (by simp) q listed
  refine ⟨own.1, ?_⟩
  have term := own.2 t part
  dsimp only
  split
  · split
    · exact term
    · exact makes.mul (by simpa using term)
  · split
    · exact .num _
    · exact over_scaleTerm term _

theorem over_evaluatePowers (made : OverPowers P powers) :
    (∀ e ∈ (evaluatePowers ops powers).1, Over P e) ∧ OverPowers P (evaluatePowers ops powers).2.1 := by
  induction powers with
  | nil => simp [evaluatePowers, OverPowers]
  | cons p powers ih =>
    rw [OverPowers, forall_mem_cons] at made
    obtain ⟨values, parts⟩ := ih made.2
    have power := makes.pow made.1.1 made.1.2
    have resolved := over_baseExponent power
    unfold evaluatePowers at values parts ⊢
    rw [foldr_cons]
    dsimp only
    repeat' split
    · exact ⟨forall_mem_cons.mpr ⟨made.1.1, values⟩, forall_mem_cons.mpr ⟨made.1, parts⟩⟩
    · exact ⟨values, parts⟩
    · exact ⟨forall_mem_cons.mpr ⟨power, values⟩, forall_mem_cons.mpr ⟨resolved, parts⟩⟩
    · exact ⟨forall_mem_cons.mpr ⟨power, values⟩, forall_mem_cons.mpr ⟨made.1, parts⟩⟩

theorem over_evaluateAll (made : OverPowers P powers)
    (evaluated : evaluateAll ops powers = some es) : ∀ e ∈ es, Over P e := by
  obtain ⟨values, parts⟩ := over_evaluatePowers makes made
  unfold evaluateAll at evaluated
  dsimp only at evaluated
  split at evaluated
  · cases evaluated
  split at evaluated
  · split at evaluated
    · cases evaluated
    · cases evaluated
      exact (over_evaluatePowers makes (over_gather makes parts)).1
  · cases evaluated
    exact values

theorem over_joinNumeric (made : OverPowers P powers) : ∀ e ∈ joinNumeric ops powers, Over P e := by
  have inserted {groups : List (Coeff × Coeff)} (each : OverPowers P groups) {b e : Coeff} (base : Over P b)
      (exponent : Over P e) : OverPowers P (joinNumeric.insert ops groups b e) := by
    induction groups with
    | nil => simpa [joinNumeric.insert, OverPowers] using ⟨base, exponent⟩
    | cons p groups ih =>
      rw [OverPowers, forall_mem_cons] at each
      unfold joinNumeric.insert
      split
      · exact forall_mem_cons.mpr ⟨⟨over_times makes each.1.1 base, each.1.2⟩, each.2⟩
      · exact forall_mem_cons.mpr ⟨each.1, ih each.2⟩
  have folded (acc : List (Coeff × Coeff)) (each : OverPowers P acc) :
      OverPowers P (powers.foldl (fun acc p => joinNumeric.insert ops acc p.1 p.2) acc) := by
    induction powers generalizing acc with
    | nil => exact each
    | cons p powers ih =>
      rw [OverPowers, forall_mem_cons] at made
      exact ih made.2 _ (inserted each made.1.1 made.1.2)
  intro e mem
  obtain ⟨p, listed, joined⟩ := mem_filterMap.mp mem
  have own := folded [] (by simp [OverPowers]) p listed
  dsimp only at joined
  split at joined
  · cases joined
  · cases joined
    exact makes.pow own.1 own.2

theorem over_multiply (made : ∀ e ∈ args, Over P e) : Over P (multiply ops args) := by
  unfold multiply
  dsimp only
  generalize args.foldl _ _ = size
  have start : ∀ e ∈ ([] : List Coeff), Over P e := by simp
  have sorted := isOver_sortFactors ops (over_takeUp makes (4 * size) made start)
  split
  · exact .num _
  · rename_i powers evaluated
    refine over_settleNumber _ ?_
    simp only [forall_mem_append]
    refine ⟨⟨⟨over_evaluateAll makes (over_gather makes sorted.powers) evaluated,
      over_joinNumeric makes (over_gather makes sorted.numeric)⟩, ?_⟩, ?_⟩
    · unfold turnParts
      dsimp only
      repeat' split
      all_goals simp
    · exact forall_mem_map.mpr fun _ _ => makes.pow (.num _) (.num _)

theorem over_productStep (made : ∀ e ∈ args, Over P e) : Over P (productStep ops args) := by
  unfold productStep
  generalize filtered : args.filter _ = kept
  have made : ∀ e ∈ kept, Over P e := fun e mem => made e (mem_of_mem_filter (filtered ▸ mem))
  have zero {e : Coeff} (own : Over P e) : Over P (addAll (e.summands.map fun t => ops.times (ofInt 0) t)) :=
    over_addAll (forall_mem_map.mpr fun t mem => over_times makes (.num _) (over_summands own t mem))
  split
  · exact .num _
  · exact made _ mem_cons_self
  · exact zero (made _ (by simp))
  · exact zero (made _ (by simp))
  · exact over_multiply makes made

/-! ### Powers -/

theorem over_unsignedBase? (made : Over P b) : ∀ w, unsignedBase? ops b = some w → Over P w := by
  unfold unsignedBase?
  repeat' split
  all_goals simp [over_opposite makes made]

theorem over_powerOfPower (base : Over P b) (exponent : Over P e) (made : Over P x) :
    ∀ w, powerOfPower ops b e x = some w → Over P w := by
  have joined (sign : Scalar) {b : Coeff} (base : Over P b) :
      Over P (ops.times (num sign) (ops.pow b (ops.times e x))) :=
    over_times makes (.num _) (makes.pow base (over_times makes exponent made))
  have turned {b' : Coeff} (base : Over P b') (sign : Option Scalar) :
      ∀ w, sign.map (fun s => ops.times (num s) (ops.pow b' (ops.times e x))) = some w → Over P w := by
    intro w found
    obtain ⟨s, -, rfl⟩ := Option.map_eq_some_iff.mp found
    exact joined s base
  unfold powerOfPower
  dsimp only
  split
  · simp [joined, base]
  split
  · simp
  · split
    · exact turned base _
    · simp
  split
  · rintro w ⟨⟩
    refine over_times makes (makes.pow (.num _) made) (makes.pow (over_opposite makes base) (makes.mul ?_))
    simp [exponent, made]
  split
  · simp [makes.pow, over_opposite makes, base, made]
  have base' {p : Prop} [Decidable p] : Over P (if p then ops.opposite b else b) :=
    over_ite (over_opposite makes base) base
  refine over_of_ite ?_ ?_
  · rintro w ⟨⟩
    exact joined 1 base'
  split
  · exact over_of_ite (turned base' _) (by simp)
  · simp

theorem over_shareSigns {nonnegative negative other : List Coeff} (first : ∀ e ∈ nonnegative, Over P e)
    (second : ∀ e ∈ negative, Over P e) (third : ∀ e ∈ other, Over P e) :
    (∀ e ∈ (shareSigns ops nonnegative negative other).1, Over P e) ∧
      ∀ e ∈ (shareSigns ops nonnegative negative other).2, Over P e := by
  have append {es fs : List Coeff} (left : ∀ e ∈ es, Over P e) (right : ∀ e ∈ fs, Over P e) : ∀ e ∈ es ++ fs, Over P e :=
    forall_mem_append.mpr ⟨left, right⟩
  unfold shareSigns
  split
  · exact ⟨first, third⟩
  · split
    · exact ⟨first, second⟩
    split
    · split
      · exact ⟨first, append third second⟩
      · exact ⟨append first (by simp), append third (by simp)⟩
    · exact ⟨first, append third second⟩
  · rename_i n rest _
    have share (o : Coeff) (own : Over P o) {negative : List Coeff} (each : ∀ e ∈ negative, Over P e) :
        (∀ e ∈ nonnegative ++ negative.map ops.opposite, Over P e) ∧
          ∀ e ∈ (if (if negative.length % 2 = 1 then ops.opposite o else o).isOne then other
            else other ++ [if negative.length % 2 = 1 then ops.opposite o else o]), Over P e := by
      refine ⟨append first (forall_mem_map.mpr fun e mem => over_opposite makes (each e mem)), ?_⟩
      have signed : Over P (if negative.length % 2 = 1 then ops.opposite o else o) :=
        over_ite (over_opposite makes own) own
      by_cases one : (if negative.length % 2 = 1 then ops.opposite o else o).isOne
      · simpa only [one, if_true] using third
      · simpa only [one, if_false, Bool.false_eq_true] using append third (by simpa using signed)
    dsimp only
    split
    · rename_i c
      by_cases empty : other.isEmpty
      · simpa only [empty, if_true] using share (num c) (.num c) fun e mem => second e (mem_cons_of_mem _ mem)
      · simpa only [empty, if_false, Bool.false_eq_true] using share 1 (.num _) second
    · exact share 1 (.num _) second

theorem over_splitBase (made : ∀ e ∈ args, Over P e) (exponent : Over P e) : Over P (splitBase ops args e) := by
  have among (p : Coeff → Bool) : ∀ f ∈ args.filter p, Over P f := fun f mem => made f (mem_of_mem_filter mem)
  obtain ⟨each, others⟩ := over_shareSigns makes (among fun a => a.facts.isNonnegative)
    (among fun a => let k := a.facts; k.real == some true && !k.isNonnegative) (among fun a => a.facts.real != some true)
  have raised {f : Coeff → Coeff} (powers : ∀ a, Over P a → Over P (f a)) (p : Coeff → Bool) :
      Over P (ops.mul (((sortSigns ops args).1.filter p).map f)) :=
    makes.mul (forall_mem_map.mpr fun a mem => powers a (each a (mem_of_mem_filter mem)))
  have front (p q : Coeff → Bool) := over_times makes (raised (fun a own => makes.pow own exponent) p)
    (raised (fun a own => .pow own exponent) q)
  unfold splitBase
  dsimp only
  exact over_ite (front _ _) (over_times makes (front _ _) (.pow (makes.mul others) exponent))

theorem over_powerOfProduct (c : Scalar) (made : ∀ f ∈ fs, Over P f) (exponent : Over P x) :
    ∀ w, powerOfProduct ops c fs x = some w → Over P w := by
  have args := over_multiplicands (.prod c made)
  have split := over_splitBase makes args exponent
  unfold powerOfProduct
  dsimp only
  split
  · rintro w ⟨⟩
    exact makes.mul (forall_mem_map.mpr fun f mem => .pow (args f mem) exponent)
  split
  · split
    · rintro w ⟨⟩
      exact over_besideNumber _ (makes.pow (over_ofComplex _ _) (.num _))
    · simp [split]
  · simp [split]
  · simp [split]
  · simp

theorem over_powerOfSum (c : Scalar) (ts : List Coeff) (x : Coeff) :
    ∀ w, powerOfSum ops c ts x = some w → Over P w := by
  unfold powerOfSum
  dsimp only
  refine over_of_ite ?_ ?_
  · repeat' split
    all_goals simp
  split
  · refine over_of_ite ?_ (over_of_ite ?_ (by simp))
    · intro w found
      obtain ⟨d, -, rfl⟩ := Option.map_eq_some_iff.mp found
      refine over_times makes (makes.pow (makes.pow (.num _) (.num _)) (.num _)) (over_ite ?_ ?_)
      · exact makes.pow (over_ofComplex _ _) (.num _)
      · exact over_ofComplex _ _
    · rintro w ⟨⟩
      exact over_besideNumber _ (over_ofComplex _ _)
  · refine over_of_ite ?_ (by simp)
    simp [over_add]
  · simp

theorem over_resolvePower (base : Over P b) (exponent : Over P e) : ∀ w, resolvePower ops b e = some w → Over P w := by
  unfold resolvePower
  split
  · exact over_numberPower makes _ exponent
  · exact over_imaginaryPower e
  · exact over_expPower makes exponent
  · simp
  · have parts := over_baseExponent base
    exact over_powerOfPower makes parts.1 parts.2 exponent
  · exact over_powerOfProduct makes _ (over_prod.mp base) exponent
  · exact over_powerOfSum makes _ _ _
  · simp
  · simp

theorem over_powerStep (base : Over P b) (exponent : Over P e) : Over P (powerStep ops b e) := by
  have getD {o : Option Coeff} (each : ∀ w, o = some w → Over P w) {d : Coeff} (default : Over P d) : Over P (o.getD d) := by
    cases o with
    | none => exact default
    | some w => exact each w rfl
  have unsigned {b e : Coeff} (base : Over P b) (exponent : Over P e) : Over P (powerUnsigned ops b e) := by
    unfold powerUnsigned
    split
    · exact .num _
    · exact .num _
    · exact over_ite (.num _) (.num _)
    · exact getD (over_resolvePower makes base exponent) (.pow base exponent)
  unfold powerStep
  split
  · exact .num _
  · refine getD ?_ (unsigned base exponent)
    unfold limitPower
    split
    all_goals simp
  · repeat' split
    · exact .num _
    · exact base
    · exact unsigned base exponent
    · exact unsigned (over_unsignedBase? makes base _ ‹_›) exponent
    · exact over_opposite makes (makes.pow (over_unsignedBase? makes base _ ‹_›) exponent)
    · exact unsigned base exponent
  · exact unsigned base exponent

end

/-! ### To a bounded depth -/

theorem makesNone_operations (P : Coeff → Prop) (depth : Nat) : (operations depth).MakesNone P := by
  induction depth with
  | zero => exact ⟨.prod 1, .pow⟩
  | succ depth ih => exact ⟨over_productStep ih, over_powerStep ih⟩

theorem over_mulAll (made : ∀ e ∈ args, Over P e) : Over P (mulAll args) :=
  (makesNone_operations P depthLimit).mul made

theorem over_raise {e : Coeff} (base : Over P b) (exponent : Over P e) : Over P (raise b e) :=
  (makesNone_operations P depthLimit).pow base exponent

theorem over_mul (left : Over P a) (right : Over P b) : Over P (mul a b) := by
  unfold mul
  split
  · exact .num _
  · exact over_mulAll (by simp [left, right])

theorem over_neg {e : Coeff} (made : Over P e) : Over P e.neg := by
  unfold neg
  split
  · exact .num _
  · exact over_mulAll (by simp [made])

end Bladewright.Coeff
