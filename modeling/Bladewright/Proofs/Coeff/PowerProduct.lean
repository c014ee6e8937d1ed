import Bladewright.Proofs.Coeff.Expanded

/-!
Products of powers of given bases, where none of the bases is a number or a power and no two of them are taken for the
same (`Bases`).
-/
namespace Bladewright

open List Scalar

namespace Scalar

theorem isZero_mul {c d : Scalar} (finite : c.isFinite ∧ d.isFinite) (left : c.isZero = false) (right : d.isZero = false) :
    (c * d).isZero = false := by
  have rounded {q : ℚ} (nonzero : q ≠ 0) : rounded q ≠ 0 := Numeral.roundBits_ne_zero (by decide) nonzero
  cases c with
  | exact p =>
    have first : p ≠ 0 := by simpa using left
    cases d with
    | exact q =>
      have second : q ≠ 0 := by simpa using right
      simp [exact_mul, first, second]
    | approx q => exact isZero_ofRounding (mul_ne_zero (rounded first) (by simpa [isZero] using right))
    | _ => cases finite.2
  | approx p =>
    have first : p ≠ 0 := by simpa [isZero] using left
    cases d with
    | exact q => exact isZero_ofRounding (mul_ne_zero first (rounded (by simpa using right)))
    | approx q => exact isZero_ofRounding (mul_ne_zero first (by simpa [isZero] using right))
    | _ => cases finite.2
  | _ => cases finite.1

/-- Kinds of numbers between the finite ones and those of them that are not zero. -/
structure Kind (N : Scalar → Prop) : Prop where
  finite {c : Scalar} : N c → c.isFinite
  proper {c : Scalar} : c.isFinite → c.isZero = false → N c
  mul {c d : Scalar} : N c → N d → N (c * d)

theorem kind_finite : Kind fun c => c.isFinite = true := ⟨id, fun finite _ => finite, isFinite_mul⟩

def IsProper (c : Scalar) : Prop := c.isFinite ∧ c.isZero = false

theorem kind_proper : Kind IsProper :=
  ⟨And.left, And.intro, fun left right => ⟨isFinite_mul left.1 right.1, isZero_mul ⟨left.1, right.1⟩ left.2 right.2⟩⟩

end Scalar

namespace Coeff

variable {ops : Operations} {ι : Type}

/-! ### Gathering powers -/

section

variable [DecidableEq ι]

/-- Powers with one more: exponents of one base are added up. -/
def addPower : List (ι × ℤ) → ι × ℤ → List (ι × ℤ)
  | [], p => [p]
  | q :: l, p => if p.1 = q.1 then (q.1, q.2 + p.2) :: l else q :: addPower l p

def gathered (l : List (ι × ℤ)) : List (ι × ℤ) := l.foldl addPower []

theorem keys_addPower (l : List (ι × ℤ)) (p : ι × ℤ) : (addPower l p).map Prod.fst =
    if p.1 ∈ l.map Prod.fst then l.map Prod.fst else l.map Prod.fst ++ [p.1] := by
  induction l with
  | nil => rfl
  | cons q l ih =>
    rw [addPower]
    split
    · rename_i equal
      simp [equal]
    · rename_i differ
      rw [map_cons, ih]
      simp only [map_cons, mem_cons, differ, false_or]
      split <;> rfl

variable {l : List (ι × ℤ)} {p : ι × ℤ} {E : ℤ → Prop}

theorem addPower_new (new : p.1 ∉ l.map Prod.fst) : addPower l p = l ++ [p] := by
  induction l with
  | nil => rfl
  | cons q l ih =>
    simp only [map_cons, mem_cons, not_or] at new
    rw [addPower, if_neg new.1, ih new.2]
    rfl

theorem forall_addPower (add : ∀ m n, E m → E n → E (m + n))
    (all : ∀ q ∈ l, E q.2) (own : E p.2) : ∀ q ∈ addPower l p, E q.2 := by
  induction l with
  | nil => simpa [addPower] using own
  | cons q l ih =>
    rw [forall_mem_cons] at all
    rw [addPower]
    split
    · exact forall_mem_cons.mpr ⟨add _ _ all.1 own, all.2⟩
    · exact forall_mem_cons.mpr ⟨all.1, ih all.2⟩

theorem nodup_gathered (l : List (ι × ℤ)) : ((gathered l).map Prod.fst).Nodup := by
  refine List.foldlRecOn l addPower (b := []) (motive := fun k => (k.map Prod.fst).Nodup) nodup_nil fun k distinct p _ => ?_
  rw [keys_addPower]
  split
  · exact distinct
  · rename_i new
    exact nodup_append_comm.mp (nodup_cons.mpr ⟨new, distinct⟩)

theorem gathered_of_nodup (distinct : (l.map Prod.fst).Nodup) : gathered l = l := by
  have step : ∀ (l k : List (ι × ℤ)), ((k ++ l).map Prod.fst).Nodup → l.foldl addPower k = k ++ l := by
    intro l
    induction l with
    | nil => simp
    | cons p l ih =>
      intro k distinct
      have new : p.1 ∉ k.map Prod.fst := by
        rw [map_append, map_cons, nodup_append] at distinct
        exact fun mem => distinct.2.2 _ mem _ mem_cons_self rfl
      rw [foldl_cons, addPower_new new, ih]
      · simp
      · simpa using distinct
  exact step l [] distinct

theorem forall_gathered (add : ∀ m n, E m → E n → E (m + n)) (all : ∀ p ∈ l, E p.2) : ∀ p ∈ gathered l, E p.2 :=
  List.foldlRecOn l addPower (motive := fun k => ∀ p ∈ k, E p.2) (by simp) fun _ before p mem =>
    forall_addPower add before (all p mem)

variable {base : ι → Coeff} (apart : ∀ i j, same (base i) (base j) = true ↔ i = j)
include apart

theorem gatherPower_groups (l : List (ι × ℤ)) (p : ι × ℤ) :
    gatherPower (l.map fun q => (base q.1, [(1, Scalar.ofInt q.2)])) (base p.1) (ofInt p.2) =
      (addPower l p).map fun q => (base q.1, [(1, Scalar.ofInt q.2)]) := by
  have parts : (ofInt p.2).splitNumber = (Scalar.ofInt p.2, 1) := rfl
  induction l with
  | nil => rfl
  | cons q l ih =>
    rw [map_cons, gatherPower, parts, addPower]
    by_cases equal : p.1 = q.1
    · simp only [equal, if_pos ((apart q.1 q.1).mpr rfl), if_true]
      rw [gatherPower.gatherExponent, if_pos (same_self 1), Scalar.ofInt, Scalar.ofInt, Scalar.exact_add]
      simp [Scalar.ofInt]
    · simp only [if_neg (mt (apart p.1 q.1).mp equal), equal, if_false, ih]
      rfl

theorem gather_powers (l : List (ι × ℤ)) :
    gather ops (l.map fun p => (base p.1, ofInt p.2)) = (gathered l).map fun p => (base p.1, ofInt p.2) := by
  have groups : ∀ (l k : List (ι × ℤ)), (l.map fun p => (base p.1, ofInt p.2)).foldl (fun acc p => gatherPower acc p.1 p.2)
      (k.map fun q => (base q.1, [(1, Scalar.ofInt q.2)])) =
      (l.foldl addPower k).map fun q => (base q.1, [(1, Scalar.ofInt q.2)]) := by
    intro l
    induction l with
    | nil => exact fun _ => rfl
    | cons p l ih =>
      intro k
      rw [map_cons, foldl_cons, foldl_cons, ← ih, ← gatherPower_groups apart]
  have start := groups l []
  rw [map_nil] at start
  rw [gather, start, flatMap_map, gathered, ← flatMap_pure_eq_map]
  refine flatMap_congr fun p _ => ?_
  show [(base p.1, if (Scalar.ofInt p.2).isZero then num (Scalar.ofInt p.2) else num (Scalar.ofInt p.2 * .exact (1 : ℕ)))] = _
  have number : Scalar.ofInt p.2 * .exact (1 : ℕ) = Scalar.ofInt p.2 := by
    rw [Scalar.ofInt, Scalar.exact_mul, Nat.cast_one, mul_one]
  rw [number, ite_self]
  rfl

end

/-! ### Evaluating powers -/

def power (base : ι → Coeff) (p : ι × ℤ) : Coeff := wholePower (base p.1) p.2

/-- Bases of powers: none of them is a number, a power or an infinite sum, and no two are taken for the same. -/
structure Bases (base : ι → Coeff) : Prop where
  bare (i : ι) : (base i).isBare
  finite {i : ι} {c : Scalar} {ts : List Coeff} : base i = sum c ts → c.isFinite
  apart (i j : ι) : same (base i) (base j) = true ↔ i = j

namespace Bases

variable {base : ι → Coeff} (bases : Bases base)
include bases

theorem baseExponent (p : ι × ℤ) : (power base p).baseExponent = (base p.1, ofInt p.2) := by
  have bare := bases.bare p.1
  unfold power wholePower
  split
  · rename_i one
    rw [one, ← one_eq_ofInt]
    generalize base p.1 = b at bare
    cases b <;> first | rfl | cases bare
  · generalize base p.1 = b at bare
    cases b <;> first | rfl | cases bare

theorem isPart (p : ι × ℤ) : (power base p).isPart := by
  have bare := bases.bare p.1
  unfold power wholePower
  generalize base p.1 = b at bare
  split
  · cases b <;> first | exact bare | cases bare
  · exact bare

theorem toScalar? (p : ι × ℤ) : (power base p).toScalar? = none := toScalar?_wholePower (bases.bare p.1) p.2

theorem evaluatePowers (depth : Nat) (l : List (ι × ℤ)) :
    evaluatePowers (operations depth) (l.map fun p => (base p.1, ofInt p.2)) =
      ((l.filter (·.2 ≠ 0)).map (power base), (l.filter (·.2 ≠ 0)).map (fun p => (base p.1, ofInt p.2)), false) := by
  induction l with
  | nil => rfl
  | cons p l ih =>
    obtain ⟨i, n⟩ := p
    unfold Coeff.evaluatePowers at ih ⊢
    rw [map_cons, foldr_cons, ih, filter_cons]
    have bare := bases.bare i
    dsimp only
    split
    · rename_i one
      obtain rfl : n = 1 := by simpa [ofInt, Scalar.ofInt] using one
      rfl
    · rename_i notOne
      have one : n ≠ 1 := by
        rintro rfl
        exact notOne (by simp [ofInt, Scalar.ofInt])
      by_cases zero : n = 0
      · rw [if_pos (by simp [zero]), if_neg (by simp [zero])]
      · have parts := bases.baseExponent (i, n)
        have raised : (pow (base i) (ofInt n)).isPow && !(base i).isPow := by
          generalize base i = b at bare
          cases b <;> first | rfl | cases bare
        have known : ¬ ((ofInt n).facts.zero == some true) = true := by simp [zero]
        have kept : decide (n ≠ 0) = true := by simp [zero]
        rw [power, wholePower, if_neg one] at parts
        rw [if_neg known, operations_pow_bare depth bare zero one, if_pos raised, parts, same_self, if_pos kept,
          map_cons, map_cons, power, wholePower, if_neg one]
        rfl

theorem evaluateAll (depth : Nat) (l : List (ι × ℤ)) :
    evaluateAll (operations depth) (l.map fun p => (base p.1, ofInt p.2)) =
      some ((l.filter (·.2 ≠ 0)).map (power base)) := by
  have finite : cancelsInfinity (l.map fun p => (base p.1, ofInt p.2)) = false := by
    rw [cancelsInfinity, any_map, any_eq_false]
    rintro ⟨i, n⟩ -
    have bare := bases.bare i
    have sum := @bases.finite i
    simp only [Function.comp_apply]
    generalize base i = b at bare sum
    cases b with
    | sum c ts => simp only [ofInt, sum rfl, Bool.not_true, Bool.and_false, Bool.false_and, Bool.false_eq_true, not_false_eq_true]
    | sym | app => exact Bool.false_ne_true
    | _ => cases bare
  rw [Coeff.evaluateAll, finite, bases.evaluatePowers]
  rfl

end Bases

/-! ### Multiplying up -/

variable {e a b : Coeff} {c : Scalar} {args : List Coeff}

theorem facts_finite_of_symbolic (symbolic : e.toScalar? = none) : (e.facts.finite == some false) = false := by
  cases e with
  | num => cases symbolic
  | sym | app => rfl
  | _ =>
    simp only [facts]
    split
    · split <;> rfl
    · rfl

theorem settleNumber_finite (finite : c.isFinite) {fs : List Coeff} (symbolic : ∀ f ∈ fs, f.toScalar? = none) :
    settleNumber c fs = if c.isZero then num c else ofFactors c (arrange fs) := by
  have numbers : fs.filterMap Coeff.toScalar? = [] := by simpa [filterMap_eq_nil_iff] using symbolic
  have others : fs.filter (·.toScalar?.isNone) = fs := by
    rw [filter_eq_self]
    exact fun f mem => by rw [symbolic f mem]; rfl
  have bounded : fs.any (·.facts.finite == some false) = false := by
    rw [any_eq_false]
    exact fun f mem => by rw [facts_finite_of_symbolic (symbolic f mem)]; exact Bool.false_ne_true
  cases c with
  | exact | approx => simp [settleNumber, numbers, others, bounded]
  | _ => cases finite

theorem multiplicands_of_part (part : e.isPart) : e.multiplicands = [e] := by
  cases e <;> first | rfl | cases part

theorem takeUp_perm {fuel : Nat} {queue later taken : List Coeff} (opens : ∀ e ∈ queue, Opens (fun f => f.isPart) e)
    (rest : ∀ e ∈ later, e.isPart) (enough : queue.length ≤ fuel) :
    (takeUp ops fuel (queue ++ later) taken).Perm (queue.flatMap multiplicands ++ later ++ taken) := by
  induction queue generalizing fuel later taken with
  | nil =>
    rw [nil_append, takeUp_taken fun e mem => isTaken_part (rest e mem)]
    exact perm_append_comm.trans ((reverse_perm taken).append_left later)
  | cons e queue ih =>
    rw [forall_mem_cons] at opens
    obtain ⟨fuel, rfl⟩ : ∃ n, fuel = n + 1 := ⟨fuel - 1, by simp at enough; omega⟩
    have enough : queue.length ≤ fuel := by simpa using enough
    rw [cons_append, flatMap_cons]
    rcases opens.1 with own | ⟨product, factors⟩
    · rw [isTaken_part own, multiplicands_of_part own]
      refine (ih opens.2 rest enough).trans ?_
      exact perm_middle
    · rw [takeUp_prod product, append_assoc]
      refine (ih opens.2 (forall_mem_append.mpr ⟨rest, factors⟩) enough).trans ?_
      rw [← append_assoc]
      refine List.Perm.append_right taken ?_
      rw [append_assoc e.multiplicands]
      exact perm_append_comm

theorem exists_of_perm_map {α β : Type} {f : α → β} {m : List β} {l : List α} (perm : m.Perm (l.map f)) :
    ∃ k : List α, m = k.map f ∧ k.Perm l :=
  (congrFun (congrFun (eq_map_comp_perm f) m) l).mpr perm

/-- The factors that a product takes up: numbers of a kind, and powers of bases. -/
structure Parts (N : Scalar → Prop) (base : ι → Coeff) (es : List Coeff) (l : List (ι × ℤ)) : Prop where
  opens : ∀ e ∈ es, Opens (fun f => f.isPart) e
  numbers : ∀ c ∈ (es.flatMap multiplicands).filterMap toScalar?, N c
  powers : ((es.flatMap multiplicands).filter (·.toScalar?.isNone)).Perm (l.map (power base))

variable {N : Scalar → Prop} (kind : Scalar.Kind N)

include kind in
theorem multiply_parts [DecidableEq ι] {base : ι → Coeff} (bases : Bases base) (depth : Nat)
    {l : List (ι × ℤ)} (parts : Parts N base args l) :
    ∃ (c : Scalar) (k : List (ι × ℤ)), N c ∧ k.Perm l ∧ multiply (operations depth) args =
      if c.isZero then num c else ofFactors c (arrange (((gathered k).filter (·.2 ≠ 0)).map (power base))) := by
  have enough : args.length ≤ 4 * args.foldl (fun n e => n + e.multiplicands.length + 1) 16 := by
    have size : args.length ≤ (args.map fun e => e.multiplicands.length + 1).sum := by
      simp
    rw [foldl_size]
    omega
  have taken := @takeUp_perm (operations depth) _ args [] [] parts.opens (by simp) enough
  rw [append_nil, append_nil, append_nil] at taken
  generalize took : takeUp (operations depth) _ args [] = fs at taken
  have isPart : ∀ f ∈ fs, f.isPart := by
    intro f mem
    obtain ⟨e, inside, part⟩ := mem_flatMap.mp (taken.mem_iff.mp mem)
    rcases parts.opens e inside with own | ⟨-, factors⟩
    · rw [multiplicands_of_part own, mem_singleton] at part
      exact part ▸ own
    · exact factors f part
  obtain ⟨k, listed, perm⟩ := exists_of_perm_map ((taken.filter (·.toScalar?.isNone)).trans parts.powers)
  have sorted : sortFactors (operations depth) fs =
      { number := (fs.filterMap toScalar?).foldl (· * ·) 1, powers := k.map fun p => (base p.1, ofInt p.2) } := by
    rw [sortFactors_parts isPart, listed, map_map]
    congr 1
    exact map_congr_left fun p _ => bases.baseExponent p
  have number : N ((fs.filterMap toScalar?).foldl (· * ·) 1) :=
    List.foldlRecOn (fs.filterMap toScalar?) (· * ·) (kind.proper rfl rfl) fun c before d mem =>
      kind.mul before (parts.numbers d ((taken.filterMap _).mem_iff.mp mem))
  refine ⟨_, k, number, perm, ?_⟩
  rw [multiply_eq (by rw [took, sorted]), gather_powers bases.apart, bases.evaluateAll, Option.elim_some,
    settleNumber_finite (kind.finite number)]
  intro f mem
  obtain ⟨p, -, rfl⟩ := mem_map.mp mem
  exact bases.toScalar? p

include kind in
theorem multiply_distinct [DecidableEq ι] {base : ι → Coeff} (bases : Bases base) (depth : Nat)
    {l : List (ι × ℤ)} (parts : Parts N base args l) (distinct : (l.map Prod.fst).Nodup) (nonzero : ∀ p ∈ l, p.2 ≠ 0) :
    ∃ (c : Scalar) (fs : List Coeff), N c ∧ fs.Perm (l.map (power base)) ∧
      multiply (operations depth) args = if c.isZero then num c else ofFactors c fs := by
  obtain ⟨c, k, number, perm, product⟩ := multiply_parts kind bases depth parts
  have all : (gathered k).filter (·.2 ≠ 0) = k := by
    rw [gathered_of_nodup ((perm.map Prod.fst).nodup_iff.mpr distinct), filter_eq_self]
    exact fun p mem => by simpa using nonzero p (perm.mem_iff.mp mem)
  rw [all] at product
  exact ⟨c, _, number, (arrange_perm _).trans (perm.map _), product⟩

/-! ### The parts of products -/

namespace Parts

variable {base : ι → Coeff} {es fs : List Coeff} {l k : List (ι × ℤ)}

theorem nil : Parts N base [] [] := ⟨by simp, by simp, by simp⟩

theorem append (left : Parts N base es l) (right : Parts N base fs k) : Parts N base (es ++ fs) (l ++ k) where
  opens := forall_mem_append.mpr ⟨left.opens, right.opens⟩
  numbers := by
    rw [flatMap_append, filterMap_append]
    exact forall_mem_append.mpr ⟨left.numbers, right.numbers⟩
  powers := by
    rw [flatMap_append, filter_append, map_append]
    exact left.powers.append right.powers

theorem perm (parts : Parts N base es l) (order : fs.Perm es) : Parts N base fs l where
  opens e mem := parts.opens e (order.mem_iff.mp mem)
  numbers c mem := parts.numbers c (((order.flatMap_right _).filterMap _).mem_iff.mp mem)
  powers := ((order.flatMap_right _).filter _).trans parts.powers

theorem listed (parts : Parts N base es l) (order : l.Perm k) : Parts N base es k where
  opens := parts.opens
  numbers := parts.numbers
  powers := parts.powers.trans (order.map _)

theorem transport {κ : Type} {other : κ → Coeff} {f : ι → κ} (same : ∀ i, other (f i) = base i)
    (parts : Parts N base es l) : Parts N other es (l.map fun p => (f p.1, p.2)) where
  opens := parts.opens
  numbers := parts.numbers
  powers := by
    have equal : (l.map fun p => (f p.1, p.2)).map (power other) = l.map (power base) := by
      rw [map_map]
      exact map_congr_left fun p _ => congrArg (wholePower · p.2) (same p.1)
    rw [equal]
    exact parts.powers

theorem num (own : N c) : Parts N base [num c] [] where
  opens := by simpa using .inl rfl
  numbers := by simpa [multiplicands, Coeff.toScalar?] using own
  powers := by simp [multiplicands, Coeff.toScalar?]

theorem number (parts : Parts N base es l) (mem : Coeff.num c ∈ es) : N c := by
  refine parts.numbers c (mem_filterMap.mpr ⟨Coeff.num c, mem_flatMap.mpr ⟨_, mem, ?_⟩, rfl⟩)
  simp [multiplicands]

theorem nums (numbers : ∀ e ∈ es, ∃ c, N c ∧ e = Coeff.num c) : Parts N base es [] := by
  induction es with
  | nil => exact nil
  | cons e es ih =>
    rw [forall_mem_cons] at numbers
    obtain ⟨⟨c, own, rfl⟩, others⟩ := numbers
    exact (num own).append (ih others)

theorem filter_ones (parts : Parts N base es l) : Parts N base (es.filter (!·.isOne)) l := by
  have inside : ∀ f ∈ (es.filter (!·.isOne)).flatMap multiplicands, f ∈ es.flatMap multiplicands := by
    intro f mem
    obtain ⟨e, kept, part⟩ := mem_flatMap.mp mem
    exact mem_flatMap.mpr ⟨e, mem_of_mem_filter kept, part⟩
  have powers : ((es.filter (!·.isOne)).flatMap multiplicands).filter (·.toScalar?.isNone) =
      (es.flatMap multiplicands).filter (·.toScalar?.isNone) := by
    clear parts inside
    induction es with
    | nil => rfl
    | cons e es ih =>
      cases one : e.isOne with
      | false => rw [filter_cons_of_pos (by simp [one]), flatMap_cons, flatMap_cons, filter_append,
          filter_append, ih]
      | true =>
        cases e with
        | num c => simpa [filter_cons, one, multiplicands, Coeff.toScalar?] using ih
        | _ => cases one
  refine ⟨fun e mem => parts.opens e (mem_of_mem_filter mem), fun c mem => ?_, powers ▸ parts.powers⟩
  obtain ⟨f, part, found⟩ := mem_filterMap.mp mem
  exact parts.numbers c (mem_filterMap.mpr ⟨f, inside f part, found⟩)

theorem opened (product : e.isProd) (plain : ∀ f ∈ e.multiplicands, f.isPart)
    (parts : Parts N base e.multiplicands l) : Parts N base [e] l := by
  have flat : e.multiplicands.flatMap multiplicands = e.multiplicands := by
    rw [flatMap_congr fun f mem => multiplicands_of_part (plain f mem)]
    simp
  exact ⟨by simpa using .inr ⟨product, plain⟩, by simpa [flat] using parts.numbers, by simpa [flat] using parts.powers⟩

section

variable (bases : Bases base)
include bases

theorem power (p : ι × ℤ) : Parts N base [power base p] [p] where
  opens := by simpa using .inl (bases.isPart p)
  numbers := by simp [multiplicands_of_part (bases.isPart p), bases.toScalar? p]
  powers := by simp [multiplicands_of_part (bases.isPart p), bases.toScalar? p]

theorem map_power (l : List (ι × ℤ)) : Parts N base (l.map (Coeff.power base)) l := by
  induction l with
  | nil => exact nil
  | cons p l ih => exact (power bases p).append ih

theorem prod (own : N c) (order : fs.Perm (l.map (Coeff.power base))) : Parts N base [prod c fs] l := by
  have factors : Parts N base fs l := (map_power bases l).perm order
  have plain : ∀ f ∈ fs, f.isPart := by
    intro f mem
    obtain ⟨p, -, rfl⟩ := mem_map.mp (order.mem_iff.mp mem)
    exact bases.isPart p
  refine opened rfl ?_ ?_ <;> unfold multiplicands <;> simp only <;> split
  · exact plain
  · exact forall_mem_cons.mpr ⟨rfl, plain⟩
  · exact factors
  · exact (num own).append factors

theorem ofFactors (own : N c) (l : List (ι × ℤ)) (order : fs.Perm (l.map (Coeff.power base)))
    (terms : ∀ f ∈ fs, f.isTerm) : Parts N base [ofFactors c fs] l := by
  obtain _ | ⟨f, _ | ⟨g, fs⟩⟩ := fs
  · obtain rfl : l = [] := by simpa using order.symm.eq_nil
    exact num own
  · rw [ofFactors_single (terms f (by simp))]
    split
    · exact (map_power bases l).perm order
    · exact prod bases own order
  · rw [ofFactors_several c (by simp)]
    exact prod bases own order

end

end Parts

/-! ### Products of powers -/

theorem ofFactors_one (f : Coeff) : ofFactors 1 [f] = f := by
  have one : Scalar.isOne 1 = true := by simp [Scalar.one_eq]
  cases f <;> simp [ofFactors, one]

theorem productStep_pair (left : a.isOne = false) (right : b.isOne = false)
    (other : a.isSum = false ∧ b.isSum = false ∨ a.isZero = false ∧ b.isZero = false) :
    productStep ops [a, b] = multiply ops [a, b] := by
  have kept : [a, b].filter (!·.isOne) = [a, b] := by simp [left, right]
  unfold productStep
  rw [kept]
  split
  · rename_i equal
    cases equal
  · rename_i equal
    cases equal
  · rename_i equal
    cases equal
    rcases other with ⟨-, sum⟩ | ⟨zero, -⟩
    · cases sum
    · cases zero
  · rename_i equal
    cases equal
    rcases other with ⟨sum, -⟩ | ⟨-, zero⟩
    · cases sum
    · cases zero
  · rfl

theorem multiply_alike (depth : Nat) (bases : Bases fun _ : Unit => a) (others : Bases fun _ : Unit => b)
    (alike : same b a) (m n : ℤ) : multiply (operations depth) [wholePower a m, wholePower b n] =
      if m + n = 0 then 1 else wholePower a (m + n) := by
  have isPart : ∀ f ∈ [wholePower a m, wholePower b n], f.isPart := by
    simpa using ⟨bases.isPart ((), m), others.isPart ((), n)⟩
  have sorted : sortFactors (operations depth) [wholePower a m, wholePower b n] =
      { powers := [(a, ofInt m), (b, ofInt n)] } := by
    have first := bases.toScalar? ((), m)
    have second := others.toScalar? ((), n)
    have left := bases.baseExponent ((), m)
    have right := others.baseExponent ((), n)
    simp only [power] at first second left right
    simp [sortFactors_parts isPart, first, second, left, right]
  have joined : gather (operations depth) [(a, ofInt m), (b, ofInt n)] = [(a, ofInt (m + n))] := by
    have same : gather (operations depth) [(a, ofInt m), (b, ofInt n)] =
        gather (operations depth) [(a, ofInt m), (a, ofInt n)] := by
      have step (es : List (Coeff × Scalar)) : gatherPower [(a, es)] b (ofInt n) = gatherPower [(a, es)] a (ofInt n) := by
        rw [gatherPower, gatherPower]
        simp only [alike, same_self, if_true]
      exact congrArg (List.flatMap _) (step [(1, Scalar.ofInt m)])
    rw [same]
    exact gather_powers bases.apart [((), m), ((), n)]
  have values := bases.evaluateAll depth [((), m + n)]
  rw [multiply_eq (by rw [takeUp_taken fun e mem => isTaken_part (isPart e mem)]; exact sorted), joined]
  simp only [map_singleton] at values
  rw [values]
  by_cases zero : m + n = 0
  · rw [if_pos zero]
    simp [zero]
    rfl
  · rw [if_neg zero]
    simp only [filter_singleton, zero, ne_eq, not_false_eq_true, decide_true, Option.elim_some]
    rw [settleNumber_finite rfl (by simpa using bases.toScalar? ((), m + n))]
    exact ofFactors_one _

theorem productStep_atoms [DecidableEq ι] {base : ι → Coeff} (bases : Bases base) (depth : Nat)
    (atoms : ∀ e ∈ args, e.isPart) {l : List (ι × ℤ)} (parts : Parts Scalar.IsProper base args l)
    (distinct : (l.map Prod.fst).Nodup) (nonzero : ∀ p ∈ l, p.2 ≠ 0) :
    ∃ (c : Scalar) (fs : List Coeff), c.IsProper ∧ fs.Perm (l.map (power base)) ∧
      productStep (operations depth) args = ofFactors c fs := by
  have kept := parts.filter_ones
  unfold productStep
  generalize filtered : args.filter (!·.isOne) = fs at kept
  have zero : num (.exact 0) ∉ fs := fun mem => Bool.false_ne_true (kept.number mem).2.symm
  split
  · exact ⟨1, [], kind_proper.proper rfl rfl, by simpa using kept.powers, rfl⟩
  · rename_i e
    have part : e.isPart := atoms e (mem_of_mem_filter (filtered ▸ mem_singleton_self e))
    have powers := kept.powers
    rw [flatMap_singleton, multiplicands_of_part part] at powers
    by_cases number : ∃ c, e = num c
    · obtain ⟨c, rfl⟩ := number
      exact ⟨c, [], kept.number (by simp), by simpa [toScalar?] using powers, rfl⟩
    · have symbolic : e.toScalar? = none := by
        cases e <;> first | rfl | exact absurd ⟨_, rfl⟩ number
      refine ⟨1, [e], kind_proper.proper rfl rfl, ?_, (ofFactors_one e).symm⟩
      simpa [symbolic] using powers
  · exact absurd (by simp) zero
  · exact absurd (by simp) zero
  · obtain ⟨c, fs, number, order, product⟩ := multiply_distinct kind_proper bases depth kept distinct nonzero
    rw [number.2] at product
    exact ⟨c, fs, number, order, product⟩

end Coeff

end Bladewright
