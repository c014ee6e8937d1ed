import Bladewright.Proofs.Coeff.Canonical
import Bladewright.Proofs.Coeff.Power

/-!
Products of evaluated expressions are evaluated: their parts are numbers and powers of names, reads and sums, powers
of one base are gathered, and what comes out is a number in front of such powers, or a number multiplied into a single
sum.
-/
namespace Bladewright.Coeff

open List Scalar Coeff

variable {names : String → Prop} {k : Nat} {ops : Operations}

/-! ### Taking up factors -/

def isPart : Coeff → Bool
  | num _ => true
  | e => e.isFactor

/-- An expression that a product takes up as it is. -/
def IsTaken (e : Coeff) : Prop :=
  ∀ (ops : Operations) (fuel : Nat) (queue taken : List Coeff),
    takeUp ops (fuel + 1) (e :: queue) taken = takeUp ops fuel queue (e :: taken)

variable {e f b : Coeff} {queue fs args es : List Coeff} {c : Scalar} {n : ℤ}

theorem isTaken_part (part : e.isPart) : IsTaken e := by
  intro ops fuel queue taken
  cases e with
  | const | prod => cases part
  | pow b x =>
    cases b with
    | sym | app | sum => rfl
    | _ => cases part
  | _ => rfl

theorem takeUp_prod (product : e.isProd) (fuel : Nat) (queue taken : List Coeff) :
    takeUp ops (fuel + 1) (e :: queue) taken = takeUp ops fuel (queue ++ e.multiplicands) taken := by
  cases e with
  | prod => rfl
  | _ => cases product

theorem takeUp_taken (all : ∀ e ∈ queue, IsTaken e) (fuel : Nat) (taken : List Coeff) :
    takeUp ops fuel queue taken = taken.reverse ++ queue := by
  induction queue generalizing fuel taken with
  | nil => cases fuel <;> simp [takeUp]
  | cons e queue ih =>
    rw [forall_mem_cons] at all
    cases fuel with
    | zero => rfl
    | succ fuel => rw [all.1, ih all.2, reverse_cons, append_assoc, singleton_append]

def Opens (P : Coeff → Prop) (e : Coeff) : Prop := P e ∨ e.isProd ∧ ∀ f ∈ e.multiplicands, P f

section

variable {P : Coeff → Prop} (part : ∀ e, P e → e.isPart)
include part

variable {fuel : Nat} {later taken : List Coeff}

theorem takeUp_opens (opens : ∀ e ∈ queue, Opens P e)
    (rest : ∀ e ∈ later, P e) (done : ∀ e ∈ taken, P e) (enough : queue.length ≤ fuel) :
    ∀ e ∈ takeUp ops fuel (queue ++ later) taken, P e := by
  induction queue generalizing fuel later taken with
  | nil =>
    rw [nil_append, takeUp_taken fun e mem => isTaken_part (part e (rest e mem))]
    intro e mem
    rcases mem_append.mp mem with before | after
    · exact done e (mem_reverse.mp before)
    · exact rest e after
  | cons e queue ih =>
    rw [forall_mem_cons] at opens
    obtain ⟨fuel, rfl⟩ : ∃ n, fuel = n + 1 := ⟨fuel - 1, by simp at enough; omega⟩
    have enough : queue.length ≤ fuel := by simpa using enough
    rw [cons_append]
    rcases opens.1 with own | ⟨product, factors⟩
    · rw [isTaken_part (part e own)]
      exact ih opens.2 rest (forall_mem_cons.mpr ⟨own, done⟩) enough
    · rw [takeUp_prod product, append_assoc]
      exact ih opens.2 (forall_mem_append.mpr ⟨rest, factors⟩) done enough

theorem takeUp_opens_twice (opens : ∀ e ∈ queue, Opens (Opens P) e)
    (rest : ∀ e ∈ later, Opens P e) (done : ∀ e ∈ taken, P e)
    (enough : (queue.map fun e => e.multiplicands.length + 1).sum + later.length ≤ fuel) :
    ∀ e ∈ takeUp ops fuel (queue ++ later) taken, P e := by
  induction queue generalizing fuel later taken with
  | nil =>
    have all : ∀ e ∈ takeUp ops fuel (later ++ []) taken, P e :=
      takeUp_opens part rest nofun done (by simpa using enough)
    simpa using all
  | cons e queue ih =>
    rw [forall_mem_cons] at opens
    simp only [map_cons, sum_cons] at enough
    obtain ⟨fuel, rfl⟩ : ∃ n, fuel = n + 1 := ⟨fuel - 1, by omega⟩
    rw [cons_append]
    rcases opens.1 with (own | ⟨product, factors⟩) | ⟨product, factors⟩
    · rw [isTaken_part (part e own)]
      exact ih opens.2 rest (forall_mem_cons.mpr ⟨own, done⟩) (by omega)
    · rw [takeUp_prod product, append_assoc]
      refine ih opens.2 (forall_mem_append.mpr ⟨rest, fun f mem => .inl (factors f mem)⟩) done ?_
      rw [length_append]
      omega
    · rw [takeUp_prod product, append_assoc]
      refine ih opens.2 (forall_mem_append.mpr ⟨rest, factors⟩) done ?_
      rw [length_append]
      omega

end

theorem foldl_size (es : List Coeff) (start : Nat) : es.foldl (fun n e => n + e.multiplicands.length + 1) start =
      start + (es.map fun e => e.multiplicands.length + 1).sum := by
  induction es generalizing start with
  | nil => simp
  | cons e es ih =>
    rw [foldl_cons, ih, map_cons, sum_cons]
    omega

/-! ### Sorting factors -/

theorem take_part (part : f.isPart) (symbolic : f.toScalar? = none) (s : Sorted) :
    s.take ops f = { s with powers := f.baseExponent :: s.powers } := by
  cases f with
  | num => cases symbolic
  | const | prod => cases part
  | pow b x =>
    cases b with
    | sym | app | sum => rfl
    | _ => cases part
  | _ => rfl

theorem foldl_take (parts : ∀ f ∈ fs, f.isPart) (s : Sorted) : fs.foldl (Sorted.take ops) s =
      { s with
        number := (fs.filterMap toScalar?).foldl (· * ·) s.number
        powers := ((fs.filter (·.toScalar?.isNone)).map baseExponent).reverse ++ s.powers } := by
  induction fs generalizing s with
  | nil => rfl
  | cons f fs ih =>
    rw [forall_mem_cons] at parts
    rw [foldl_cons, ih parts.2]
    cases number : f.toScalar? with
    | none => simp [take_part parts.1 number, number]
    | some c =>
      cases f with
      | num d =>
        cases number
        simp [Sorted.take, toScalar?]
      | _ => cases number

theorem sortFactors_parts (parts : ∀ f ∈ fs, f.isPart) : sortFactors ops fs =
      { number := (fs.filterMap toScalar?).foldl (· * ·) 1
        powers := (fs.filter (·.toScalar?.isNone)).map baseExponent } := by
  simp [sortFactors, foldl_take parts]

/-! ### Gathering and evaluating powers -/

/-- Powers with bases of one kind and whole exponents of another. -/
def Powers (base : Coeff → Prop) (exponent : ℤ → Prop) (powers : List (Coeff × Coeff)) : Prop :=
  ∀ p ∈ powers, base p.1 ∧ ∃ n, exponent n ∧ p.2 = ofInt n

section

variable {base : Coeff → Prop} {exponent : ℤ → Prop} (add : ∀ m n, exponent m → exponent n → exponent (m + n))
include add

theorem exponents_gatherExponent {es : List (Coeff × Scalar)} (own : exponent n)
    (exponents : ∀ x ∈ es, x.1 = 1 ∧ ∃ m, exponent m ∧ x.2 = Scalar.ofInt m) :
    ∀ x ∈ gatherPower.gatherExponent es 1 (Scalar.ofInt n), x.1 = 1 ∧ ∃ m, exponent m ∧ x.2 = Scalar.ofInt m := by
  induction es with
  | nil => simpa [gatherPower.gatherExponent] using ⟨n, own, rfl⟩
  | cons x es ih =>
    obtain ⟨⟨one, m, holds, number⟩, rest⟩ := forall_mem_cons.mp exponents
    rw [gatherPower.gatherExponent]
    split
    · refine forall_mem_cons.mpr ⟨⟨one, m + n, add m n holds own, ?_⟩, rest⟩
      show x.2 + Scalar.ofInt n = Scalar.ofInt (m + n)
      rw [number, Scalar.ofInt, Scalar.ofInt, Scalar.ofInt, exact_add, Int.cast_add]
    · exact forall_mem_cons.mpr ⟨⟨one, m, holds, number⟩, ih rest⟩

theorem groups_gatherPower {groups : List (Coeff × List (Coeff × Scalar))} (own : base b) (holds : exponent n)
    (gathered : ∀ g ∈ groups, base g.1 ∧ ∀ x ∈ g.2, x.1 = 1 ∧ ∃ m, exponent m ∧ x.2 = Scalar.ofInt m) :
    ∀ g ∈ gatherPower groups b (ofInt n), base g.1 ∧ ∀ x ∈ g.2, x.1 = 1 ∧ ∃ m, exponent m ∧ x.2 = Scalar.ofInt m := by
  have parts : (ofInt n).splitNumber = (Scalar.ofInt n, 1) := rfl
  induction groups with
  | nil =>
    rw [gatherPower, parts]
    simpa using ⟨own, n, holds, rfl⟩
  | cons g groups ih =>
    obtain ⟨first, rest⟩ := forall_mem_cons.mp gathered
    rw [gatherPower, parts]
    simp only
    split
    · exact forall_mem_cons.mpr ⟨⟨first.1, exponents_gatherExponent add holds first.2⟩, rest⟩
    · exact forall_mem_cons.mpr ⟨first, ih rest⟩

theorem Powers.gather {powers : List (Coeff × Coeff)} (all : Powers base exponent powers) :
    Powers base exponent (gather ops powers) := by
  have gathered : ∀ (powers : List (Coeff × Coeff)) (groups : List (Coeff × List (Coeff × Scalar))),
      Powers base exponent powers →
      (∀ g ∈ groups, base g.1 ∧ ∀ x ∈ g.2, x.1 = 1 ∧ ∃ m, exponent m ∧ x.2 = Scalar.ofInt m) →
      ∀ g ∈ powers.foldl (fun acc p => gatherPower acc p.1 p.2) groups,
        base g.1 ∧ ∀ x ∈ g.2, x.1 = 1 ∧ ∃ m, exponent m ∧ x.2 = Scalar.ofInt m := by
    intro powers
    induction powers with
    | nil => exact fun _ _ before => before
    | cons p powers ih =>
      intro groups all before
      obtain ⟨⟨own, n, holds, number⟩, rest⟩ := forall_mem_cons.mp all
      obtain ⟨b, e⟩ := p
      cases number
      exact ih _ rest (groups_gatherPower add own holds before)
  intro p mem
  obtain ⟨⟨b, es⟩, inside, mem⟩ := mem_flatMap.mp mem
  obtain ⟨own, exponents⟩ := gathered powers [] all (by simp) _ inside
  obtain ⟨⟨t, c⟩, inside, rfl⟩ := mem_map.mp mem
  obtain ⟨rfl, n, holds, rfl⟩ := exponents _ inside
  refine ⟨own, n, holds, ?_⟩
  show (if (Scalar.ofInt n).isZero then num (Scalar.ofInt n) else num (Scalar.ofInt n * .exact (1 : ℕ))) = ofInt n
  split
  · rfl
  · rw [Scalar.ofInt, exact_mul, Nat.cast_one, mul_one]
    rfl

end

/-- Powers that evaluate to expressions of one kind, and whose base and exponent can be read off again. -/
structure Evaluates (ops : Operations) (base : Coeff → Prop) (exponent : ℤ → Prop) (kind : Coeff → Prop) : Prop where
  of_base {b : Coeff} : base b → kind b
  of_pow {b : Coeff} {n : ℤ} : base b → exponent n → n ≠ 0 → n ≠ 1 → kind (ops.pow b (ofInt n))
  parts {b : Coeff} {n : ℤ} : base b → exponent n → n ≠ 0 → n ≠ 1 → (ops.pow b (ofInt n)).isPow → b.isPow = false →
    ∃ b' m, base b' ∧ exponent m ∧ (ops.pow b (ofInt n)).baseExponent = (b', ofInt m)

namespace Evaluates

variable {base kind : Coeff → Prop} {exponent : ℤ → Prop} (evaluates : Evaluates ops base exponent kind)
include evaluates

variable {powers : List (Coeff × Coeff)}

theorem evaluatePowers (all : Powers base exponent powers) :
    (∀ v ∈ (evaluatePowers ops powers).1, kind v) ∧ Powers base exponent (evaluatePowers ops powers).2.1 := by
  induction powers with
  | nil => exact ⟨by simp [Coeff.evaluatePowers], by simp [Coeff.evaluatePowers, Powers]⟩
  | cons p powers ih =>
    obtain ⟨⟨own, n, holds, number⟩, rest⟩ := forall_mem_cons.mp all
    obtain ⟨b, e⟩ := p
    obtain rfl : e = ofInt n := number
    have before := ih rest
    unfold Coeff.evaluatePowers at before ⊢
    rw [foldr_cons]
    generalize powers.foldr _ _ = result at before ⊢
    obtain ⟨values, parts, changed⟩ := result
    obtain ⟨values_kind, parts_powers⟩ := before
    dsimp only at own values_kind parts_powers ⊢
    have listed : Powers base exponent ((b, ofInt n) :: parts) :=
      forall_mem_cons.mpr ⟨⟨own, n, holds, rfl⟩, parts_powers⟩
    split
    · exact ⟨forall_mem_cons.mpr ⟨evaluates.of_base own, values_kind⟩, listed⟩
    · rename_i notOne
      split
      · exact ⟨values_kind, parts_powers⟩
      · rename_i nonzero
        have zero : n ≠ 0 := by simpa using nonzero
        have one : n ≠ 1 := by
          rintro rfl
          exact notOne (by simp [ofInt, Scalar.ofInt])
        have value := forall_mem_cons.mpr ⟨evaluates.of_pow own holds zero one, values_kind⟩
        split
        · rename_i power
          rw [Bool.and_eq_true, Bool.not_eq_true'] at power
          obtain ⟨b', m, own', holds', parts_eq⟩ := evaluates.parts own holds zero one power.1 power.2
          rw [parts_eq]
          exact ⟨value, forall_mem_cons.mpr ⟨⟨own', m, holds', rfl⟩, parts_powers⟩⟩
        · exact ⟨value, listed⟩

theorem evaluateAll (add : ∀ m n, exponent m → exponent n → exponent (m + n)) (all : Powers base exponent powers) :
    evaluateAll ops powers = none ∨
      ∃ values, evaluateAll ops powers = some values ∧ ∀ v ∈ values, kind v := by
  obtain ⟨values, parts⟩ := evaluates.evaluatePowers all
  unfold Coeff.evaluateAll
  split
  · exact .inl rfl
  · simp only
    split
    · split
      · exact .inl rfl
      · exact .inr ⟨_, rfl, (evaluates.evaluatePowers (parts.gather add)).1⟩
    · exact .inr ⟨_, rfl, values⟩

end Evaluates

/-! ### Powers of bare expressions -/

theorem powerOfSum_none {ts : List Coeff} (bare : (sum c ts).isBare) (x : Coeff) : powerOfSum ops c ts x = none := by
  have parts : complexParts? (sum c ts) = none := Option.isNone_iff_eq_none.mp bare
  unfold powerOfSum
  simp only [parts]
  exact ite_self none

theorem powerStep_proper (zero : n ≠ 0) (one : n ≠ 1) :
    powerStep ops b (ofInt n) = (unsignedBase? ops b).elim (powerUnsigned ops b (ofInt n)) fun size =>
      if n % 2 = 0 then powerUnsigned ops size (ofInt n) else ops.opposite (ops.pow size (ofInt n)) := by
  simp only [powerStep, ofInt, Scalar.ofInt, Int.cast_eq_zero, Int.cast_eq_one, zero, one, Rat.den_intCast, ne_eq,
    not_true_eq_false, if_false, Rat.num_intCast]
  cases unsignedBase? ops b <;> rfl

theorem powerStep_bare (bare : b.isBare) (zero : n ≠ 0) (one : n ≠ 1) :
    powerStep ops b (ofInt n) = pow b (ofInt n) := by
  have unsigned : unsignedBase? ops b = none := by
    cases b <;> first | rfl | cases bare
  have unresolved : resolvePower ops b (ofInt n) = none := by
    cases b with
    | sym | app => rfl
    | sum c ts => exact powerOfSum_none bare _
    | _ => cases bare
  have general : powerUnsigned ops b (ofInt n) = (resolvePower ops b (ofInt n)).getD (pow b (ofInt n)) := by
    cases b <;> first | rfl | cases bare
  rw [powerStep_proper zero one, unsigned, Option.elim_none, general, unresolved, Option.getD_none]

theorem operations_pow_bare (depth : Nat) (bare : b.isBare) (zero : n ≠ 0) (one : n ≠ 1) :
    (operations depth).pow b (ofInt n) = pow b (ofInt n) := by
  cases depth with
  | zero => rfl
  | succ depth => exact powerStep_bare bare zero one

def PowerOf (base : Coeff → Prop) (exponent : ℤ → Prop) (f : Coeff) : Prop :=
  base f ∨ ∃ b n, base b ∧ exponent n ∧ n ≠ 0 ∧ n ≠ 1 ∧ f = pow b (ofInt n)

section

variable {base : Coeff → Prop} {exponent : ℤ → Prop} (bare : ∀ b, base b → b.isBare)
include bare

theorem PowerOf.isFactor (power : PowerOf base exponent f) : f.isFactor := by
  rcases power with own | ⟨b, n, own, -, -, -, rfl⟩
  · have := bare f own
    cases f <;> first | exact this | cases this
  · exact bare b own

theorem PowerOf.toScalar? (power : PowerOf base exponent f) : f.toScalar? = none := by
  have := power.isFactor bare
  cases f <;> first | rfl | cases this

theorem PowerOf.isPart (power : PowerOf base exponent f) : f.isPart := by
  have := power.isFactor bare
  cases f <;> first | exact this | cases this

theorem PowerOf.baseExponent (one : exponent 1) (power : PowerOf base exponent f) :
    ∃ b n, base b ∧ exponent n ∧ f.baseExponent = (b, ofInt n) := by
  rcases power with own | ⟨b, n, own, holds, -, -, rfl⟩
  · have := bare f own
    refine ⟨f, 1, own, one, ?_⟩
    rw [← one_eq_ofInt]
    cases f <;> first | rfl | cases this
  · have := bare b own
    refine ⟨b, n, own, holds, ?_⟩
    cases b <;> first | rfl | cases this

theorem evaluates_bare (depth : Nat) : Evaluates (operations depth) base exponent (PowerOf base exponent) where
  of_base own := .inl own
  of_pow {b n} own holds zero one := by
    rw [operations_pow_bare depth (bare b own) zero one]
    exact .inr ⟨b, n, own, holds, zero, one, rfl⟩
  parts {b n} own holds zero one _ _ := by
    rw [operations_pow_bare depth (bare b own) zero one]
    refine ⟨b, n, own, holds, ?_⟩
    have := bare b own
    cases b <;> first | rfl | cases this

end

/-! ### Putting a product together -/

/-- What a product comes to that has a number and factors of a kind. -/
inductive Multiplied (number : Scalar) (kind : Coeff → Prop) : Coeff → Prop
  | constant {c : Scalar} (arises : c.Arises) : Multiplied number kind (num c)
  | single {f : Coeff} (one : number.isOne) (factor : kind f) : Multiplied number kind f
  | several {fs : List Coeff} (nonzero : number.isZero = false) (factors : ∀ f ∈ fs, kind f) (nonempty : fs ≠ [])
      (several : number.isOne → 2 ≤ fs.length) (alone : number ≠ .unsigned → ∀ f, fs = [f] → f.isTerm) :
      Multiplied number kind (prod number fs)
  | spread {q : ℚ} {d : Scalar} {ts : List Coeff} (finite : number = .exact q) (zero : q ≠ 0) (factor : kind (sum d ts)) :
      Multiplied number kind (distribute number d ts)

section

variable {number : Scalar} {kind : Coeff → Prop} (arises : number.Arises)
  (symbolic : ∀ f, kind f → f.toScalar? = none)
include arises symbolic

theorem multiplied_ofFactors (nonzero : number.isZero = false) (proper : number ≠ .undefined)
    (factors : ∀ f ∈ fs, kind f) : Multiplied number kind (ofFactors number fs) := by
  rcases fs with _ | ⟨f, _ | ⟨g, fs⟩⟩
  · exact .constant arises
  · have factor : kind f := factors f (by simp)
    have product (differ : ¬ number.isOne) (term : number ≠ .unsigned → f.isTerm) :
        Multiplied number kind (prod number [f]) :=
      .several nonzero factors (by simp) (fun one => absurd one differ) fun finite g same => by
        cases same
        exact term finite
    by_cases one : number.isOne
    · have same : ofFactors number [f] = f := by cases f <;> simp [ofFactors, one]
      rw [same]
      exact .single one factor
    · cases f with
      | num => cases symbolic _ factor
      | sum d ts =>
        by_cases finite : number.isFinite
        · simp only [ofFactors, one, finite, if_true]
          cases number with
          | exact q => exact .spread rfl (by simpa using nonzero) factor
          | _ => first | exact arises.elim | cases finite
        · simp only [ofFactors, one, finite]
          refine product one fun differ => ?_
          cases number with
          | exact => exact absurd rfl finite
          | unsigned => exact absurd rfl differ
          | undefined => exact absurd rfl proper
          | _ => exact arises.elim
      | _ =>
        simp only [ofFactors, one]
        exact product one fun _ => rfl
  · have same : ofFactors number (f :: g :: fs) = prod number (f :: g :: fs) := by cases f <;> rfl
    rw [same]
    exact .several nonzero factors (by simp) (by simp) (by simp)

theorem multiplied_settleNumber {values : List Coeff} (factors : ∀ v ∈ values, kind v) :
    Multiplied number kind (settleNumber number values) := by
  -- none of the values is a number, so the number in front is not changed by them
  have finish {fs : List Coeff} (kinds : ∀ f ∈ fs, kind f) (nonzero : number.isZero = false)
      (proper : number ≠ .undefined) :
      Multiplied number kind (if (fs.filterMap toScalar?).foldl (· * ·) number = .undefined then num .undefined
        else ofFactors ((fs.filterMap toScalar?).foldl (· * ·) number)
          (arrange (fs.filter (·.toScalar?.isNone)))) := by
    have numbers : fs.filterMap toScalar? = [] :=
      filterMap_eq_nil_iff.mpr fun f mem => symbolic f (kinds f mem)
    rw [numbers, foldl_nil, if_neg proper]
    refine multiplied_ofFactors arises symbolic nonzero proper fun f mem => ?_
    exact kinds f (mem_of_mem_filter ((arrange_perm _).mem_iff.mp mem))
  cases number with
  | exact q =>
    unfold settleNumber
    simp only
    split
    · split
      · exact .constant trivial
      · exact .constant trivial
    · rename_i nonzero
      exact finish factors (by simpa using nonzero) nofun
  | unsigned => exact finish (fun f mem => factors f (mem_of_mem_filter mem)) rfl nofun
  | undefined => exact .constant trivial
  | approx | infinity => exact arises.elim

end

theorem multiply_eq {number : Scalar} {powers : List (Coeff × Coeff)}
    (sorted : sortFactors ops (takeUp ops (4 * args.foldl (fun n e => n + e.multiplicands.length + 1) 16) args []) =
      { number, powers }) :
    multiply ops args = (evaluateAll ops (gather ops powers)).elim (num .undefined) (settleNumber number) := by
  unfold multiply
  simp only [sorted, joinNumeric_nil, rootParts_nil, turnParts_zero]
  cases evaluateAll ops (gather ops powers) with
  | none => rfl
  | some values => simp

theorem arises_foldl_mul {cs : List Scalar} (arises : ∀ c ∈ cs, c.Arises) {d : Scalar} (start : d.Arises) :
    (cs.foldl (· * ·) d).Arises := by
  induction cs generalizing d with
  | nil => exact start
  | cons c cs ih =>
    rw [forall_mem_cons] at arises
    exact ih arises.2 (start.mul arises.1)

def PartOf (base : Coeff → Prop) (exponent : ℤ → Prop) (f : Coeff) : Prop :=
  (∃ c : Scalar, c.Arises ∧ f = num c) ∨ PowerOf base exponent f

section

variable {base : Coeff → Prop} {exponent : ℤ → Prop} (bare : ∀ b, base b → b.isBare)
include bare

theorem PartOf.isPart (part : PartOf base exponent f) : f.isPart := by
  rcases part with ⟨c, -, rfl⟩ | power
  · rfl
  · exact power.isPart bare

theorem PartOf.arises (parts : ∀ f ∈ fs, PartOf base exponent f) : ∀ c ∈ fs.filterMap toScalar?, c.Arises := by
  intro c mem
  obtain ⟨f, inside, found⟩ := mem_filterMap.mp mem
  rcases parts f inside with ⟨d, arises, rfl⟩ | power
  · cases found
    exact arises
  · rw [power.toScalar? bare] at found
    cases found

/-- Factors that are taken up as numbers and powers of bare bases multiply to the product of the numbers and such
powers. -/
theorem multiplied_multiply (one : exponent 1) (add : ∀ m n, exponent m → exponent n → exponent (m + n)) {depth : Nat}
    (taken : takeUp (operations depth) (4 * args.foldl (fun n e => n + e.multiplicands.length + 1) 16) args [] = fs)
    (parts : ∀ f ∈ fs, PartOf base exponent f) :
    Multiplied ((fs.filterMap toScalar?).foldl (· * ·) 1) (PowerOf base exponent) (multiply (operations depth) args) := by
  rw [multiply_eq (by rw [taken]; exact sortFactors_parts fun f mem => (parts f mem).isPart bare)]
  have powers : Powers base exponent ((fs.filter (·.toScalar?.isNone)).map baseExponent) := by
    intro p mem
    obtain ⟨f, inside, rfl⟩ := mem_map.mp mem
    obtain ⟨inside, symbolic⟩ := mem_filter.mp inside
    rcases parts f inside with ⟨c, -, rfl⟩ | power
    · cases symbolic
    · obtain ⟨b, n, own, holds, same⟩ := power.baseExponent bare one
      rw [same]
      exact ⟨own, n, holds, rfl⟩
  rcases (evaluates_bare bare depth).evaluateAll add (powers.gather add) with constant | ⟨values, found, kinds⟩
  · rw [constant]
    exact .constant trivial
  · rw [found]
    exact multiplied_settleNumber (arises_foldl_mul (PartOf.arises bare parts) arises_one)
      (fun f power => power.toScalar? bare) kinds

end

theorem productStep_cases (ops : Operations) (es : List Coeff) :
    productStep ops es = 1 ∨ (∃ e ∈ es, productStep ops es = e) ∨
      (∃ c ts, num (.exact 0) ∈ es ∧ sum c ts ∈ es ∧
        productStep ops es = addAll ((sum c ts).summands.map fun t => ops.times (ofInt 0) t)) ∨
      productStep ops es = multiply ops (es.filter (!·.isOne)) := by
  unfold productStep
  generalize filtered : es.filter (!·.isOne) = fs
  have kept : ∀ e ∈ fs, e ∈ es := fun e mem => mem_of_mem_filter (filtered ▸ mem)
  split
  · exact .inl rfl
  · rename_i e
    exact .inr (.inl ⟨e, kept e (by simp), rfl⟩)
  · rename_i c ts
    exact .inr (.inr (.inl ⟨c, ts, kept _ (by simp), kept _ (by simp), rfl⟩))
  · rename_i c ts
    exact .inr (.inr (.inl ⟨c, ts, kept _ (by simp), kept _ (by simp), rfl⟩))
  · exact .inr (.inr (.inr rfl))

/-! ### Products of evaluated expressions -/

def Base (names : String → Prop) (k : Nat) (b : Coeff) : Prop := Canonical names k b ∧ b.isBare

/-- A base, or one raised to any whole power. -/
abbrev AnyPower (names : String → Prop) (k : Nat) := PowerOf (Base names k) fun _ => True

theorem Base.isBare (b : Coeff) (own : Base names k b) : b.isBare := own.2

theorem PowerOf.canonical {exponent : ℤ → Prop} (power : PowerOf (Base names k) exponent f) : Canonical names k f := by
  rcases power with own | ⟨b, n, own, -, zero, one, rfl⟩
  · exact own.1
  · exact .pow own.1 own.2 zero one

theorem Canonical.powerOf (canonical : Canonical names k f) (factor : f.isFactor) :
    AnyPower names k f := by
  cases canonical with
  | pow base bare zero one => exact .inr ⟨_, _, ⟨base, bare⟩, trivial, zero, one, rfl⟩
  | num | prod | beside => cases factor
  | sym named => exact .inl ⟨.sym named, factor⟩
  | only named => exact .inl ⟨.only named, factor⟩
  | component named i => exact .inl ⟨.component named i, factor⟩
  | sum arises terms proper nonempty => exact .inl ⟨.sum arises terms proper nonempty, factor⟩

theorem Multiplied.canonical {number : Scalar} (arises : number.Arises) {exponent : ℤ → Prop}
    (product : Multiplied number (PowerOf (Base names k) exponent) e) : Canonical names k e := by
  cases product with
  | constant arises => exact .num arises
  | single _ factor => exact factor.canonical
  | several nonzero factors nonempty several alone =>
    exact .prod arises nonzero (fun f mem => (factors f mem).canonical)
      (fun f mem => (factors f mem).isFactor Base.isBare) nonempty several alone
  | spread exact zero factor =>
    subst exact
    have canonical := factor.canonical
    cases canonical with
    | sum arises terms proper nonempty =>
      exact (additive_distribute zero (.sum arises terms proper nonempty)).canonical

theorem partOf_multiplicands (arises : c.Arises)
    (factors : ∀ f ∈ fs, Canonical names k f) (plain : ∀ f ∈ fs, f.isFactor) :
    ∀ f ∈ (prod c fs).multiplicands, PartOf (Base names k) (fun _ => True) f := by
  have powers : ∀ f ∈ fs, PartOf (Base names k) (fun _ => True) f :=
    fun f mem => .inr ((factors f mem).powerOf (plain f mem))
  unfold multiplicands
  simp only
  split
  · exact powers
  · exact forall_mem_cons.mpr ⟨.inl ⟨c, arises, rfl⟩, powers⟩

/-- An evaluated expression is a part of a product, or a product of parts, except for a number beside an infinite
product. -/
theorem Canonical.opens (canonical : Canonical names k e) : Opens (Opens (PartOf (Base names k) fun _ => True)) e := by
  have part (factor : e.isFactor) : Opens (Opens (PartOf (Base names k) fun _ => True)) e :=
    .inl (.inl (.inr (canonical.powerOf factor)))
  cases canonical with
  | num arises => exact .inl (.inl (.inl ⟨_, arises, rfl⟩))
  | pow _ bare => exact part bare
  | prod arises _ factors plain => exact .inl (.inr ⟨rfl, partOf_multiplicands arises factors plain⟩)
  | @beside _ q fs zero one factors plain =>
    have inner : Opens (PartOf (Base names k) fun _ => True) (Coeff.prod .unsigned fs) :=
      .inr ⟨rfl, partOf_multiplicands (c := .unsigned) trivial factors plain⟩
    have number : Opens (PartOf (Base names k) fun _ => True) (Coeff.num (.exact q)) :=
      .inl (.inl ⟨.exact q, trivial, rfl⟩)
    refine .inr ⟨rfl, ?_⟩
    simpa [multiplicands, one] using ⟨number, inner⟩
  | sum _ terms => exact part (isBare_sum terms)
  | _ => exact part rfl

theorem canonical_multiply (depth : Nat) (canonical : ∀ e ∈ es, Canonical names k e) :
    Canonical names k (multiply (operations depth) es) := by
  have parts : ∀ f ∈ takeUp (operations depth) (4 * es.foldl (fun n e => n + e.multiplicands.length + 1) 16) es [],
      PartOf (Base names k) (fun _ => True) f := by
    have enough : (es.map fun e => e.multiplicands.length + 1).sum + ([] : List Coeff).length ≤
        4 * es.foldl (fun n e => n + e.multiplicands.length + 1) 16 := by
      rw [foldl_size]
      simp only [length_nil]
      omega
    have opened : ∀ f ∈ takeUp (operations depth) (4 * es.foldl (fun n e => n + e.multiplicands.length + 1) 16)
        (es ++ []) [], PartOf (Base names k) (fun _ => True) f :=
      takeUp_opens_twice (fun e part => PartOf.isPart Base.isBare part) (fun e mem => (canonical e mem).opens)
        (by simp) (by simp) enough
    rwa [append_nil] at opened
  exact (multiplied_multiply Base.isBare trivial (fun _ _ _ _ => trivial) rfl parts).canonical
    (arises_foldl_mul (PartOf.arises Base.isBare parts) arises_one)

theorem times_of_symbolic (a : Coeff) (symbolic : b.toScalar? = none) : ops.times a b = ops.mul [a, b] := by
  cases b with
  | num => cases symbolic
  | _ => cases a <;> rfl

theorem canonical_times_zero (depth : Nat) {t : Coeff} (canonical : Canonical names k t) (summand : t.isSum = false) :
    Canonical names k ((operations (depth + 1)).times (ofInt 0) t) := by
  cases number : t.toScalar? with
  | some c =>
    cases t with
    | num d => exact .num (Arises.mul trivial canonical.arises)
    | _ => cases number
  | none =>
    have product : (operations (depth + 1)).times (ofInt 0) t = productStep (operations depth) [ofInt 0, t] :=
      times_of_symbolic _ number
    have both : ∀ e ∈ [ofInt 0, t], Canonical names k e := by simpa using ⟨.num trivial, canonical⟩
    rw [product]
    rcases productStep_cases (operations depth) [ofInt 0, t] with one | ⟨e, mem, single⟩ | ⟨c, ts, -, mem, -⟩ | many
    · rw [one]
      exact .num trivial
    · rw [single]
      exact both e mem
    · rcases mem_cons.mp mem with ⟨⟨⟩⟩ | mem
      rw [← mem_singleton.mp mem] at summand
      cases summand
    · rw [many]
      exact canonical_multiply depth fun e mem => both e (mem_of_mem_filter mem)

theorem canonical_productStep (depth : Nat) (canonical : ∀ e ∈ es, Canonical names k e) :
    Canonical names k (productStep (operations (depth + 1)) es) := by
  rcases productStep_cases (operations (depth + 1)) es with one | ⟨e, mem, single⟩ | ⟨c, ts, -, mem, vanish⟩ | many
  · rw [one]
    exact .num trivial
  · rw [single]
    exact canonical e mem
  · rw [vanish]
    have sum := canonical _ mem
    cases sum with
    | sum arises terms proper nonempty =>
      have parts := Additive.summands (.inr ⟨rfl, .sum arises terms proper nonempty⟩)
      refine (additive_addAll fun e mem => ?_).canonical
      obtain ⟨t, inside, rfl⟩ := mem_map.mp mem
      obtain ⟨term, summand⟩ := parts t inside
      exact .inl (canonical_times_zero depth term summand)
  · rw [many]
    exact canonical_multiply (depth + 1) fun e mem => canonical e (mem_of_mem_filter mem)

theorem canonical_mulAll (canonical : ∀ e ∈ es, Canonical names k e) : Canonical names k (mulAll es) :=
  canonical_productStep 38 canonical

theorem Canonical.neg (canonical : Canonical names k e) : Canonical names k e.neg := by
  have product : Canonical names k (mulAll [ofInt (-1), e]) :=
    canonical_mulAll (by simpa using ⟨.num trivial, canonical⟩)
  cases e with
  | num => exact .num canonical.arises.neg
  | _ => exact product

end Bladewright.Coeff
