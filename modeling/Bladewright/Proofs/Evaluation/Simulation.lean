import Bladewright.Evaluation
import Bladewright.Proofs.Algebra.Related
import Bladewright.Proofs.Expansion.Literals

/-!
Two evaluations side by side, with two kinds of coefficients.
-/
namespace Bladewright

open List

namespace Tree

mutual

/-- The host expressions that stand for a scalar: those that are not read as a typed input. -/
def scalars : Tree → List String
  | host source => [source]
  | typed (host _) _ => []
  | typed operand _ => scalars operand
  | call _ args | operation _ args => scalarsAll args
  | _ => []

def scalarsAll : List Tree → List String
  | [] => []
  | t :: ts => scalars t ++ scalarsAll ts

end

theorem scalars_typed {operand : Tree} {spec : GradeSpec} (input : ∀ source, operand ≠ host source) :
    (typed operand spec).scalars = operand.scalars := by
  cases operand with
  | host source => exact absurd rfl (input source)
  | _ => rfl

end Tree

namespace Evaluation

open Terms (Related RelatedEntry Respects related_empty related_single)

variable {α β : Type}

/-- A success on the left is an excused error on the right, or a success there with a related result. -/
def Mirrors {γ δ : Type} (Excused : Error β → Prop) (P : γ → δ → Prop) (left : Except (Error α) γ)
    (right : Except (Error β) δ) : Prop :=
  ∀ a, left = .ok a → (∃ e, right = .error e ∧ Excused e) ∨ ∃ b, right = .ok b ∧ P a b

variable {Excused : Error β → Prop}

namespace Mirrors

variable {γ δ γ' δ' : Type} {P : γ → δ → Prop} {Q : γ' → δ' → Prop}

theorem pure {a : γ} {b : δ} (related : P a b) :
    Mirrors Excused P (.ok a : Except (Error α) γ) (.ok b : Except (Error β) δ) := by
  rintro _ ⟨⟩
  exact .inr ⟨b, rfl, related⟩

variable {right : Except (Error β) δ}

theorem error {e : Error α} : Mirrors Excused P (.error e) right := by
  rintro _ ⟨⟩

theorem bind {left : Except (Error α) γ} {f : γ → Except (Error α) γ'}
    {g : δ → Except (Error β) δ'} (first : Mirrors Excused P left right)
    (next : ∀ a b, P a b → Mirrors Excused Q (f a) (g b)) : Mirrors Excused Q (left >>= f) (right >>= g) := by
  cases left with
  | error e => exact error
  | ok a =>
    rcases first a rfl with ⟨e, stopped, excused⟩ | ⟨b, found, related⟩
    · rw [stopped]
      exact fun _ _ => .inl ⟨e, rfl, excused⟩
    · rw [found]
      exact next a b related

end Mirrors

theorem mirrors_checkedGrades (s : Signature) (spec : GradeSpec) :
    Mirrors Excused (· = ·) (checkedGrades s spec : Except (Error α) _) (checkedGrades s spec : Except (Error β) _) := by
  unfold checkedGrades
  simp only
  split
  · exact .pure rfl
  · exact .error

theorem mirrors_integerOf (slot : Slot) (tree : Tree) :
    Mirrors Excused (· = ·) (integerOf slot tree : Except (Error α) _) (integerOf slot tree : Except (Error β) _) := by
  cases tree with
  | literal value =>
    cases found : value.toInt? with
    | none =>
      simp only [integerOf, found]
      exact .error
    | some k =>
      simp only [integerOf, found]
      exact .pure rfl
  | _ => exact .error

variable {A : Terms α} {B : Terms β}

theorem related_selectGrades {R : α → β → Prop} (related : Related R A B)
    (grades : List Int) : Related R (selectGrades A grades) (selectGrades B grades) := by
  refine Related.ofList ?_
  induction grades with
  | nil => exact .nil
  | cons g grades ih =>
    rw [flatMap_cons, flatMap_cons]
    exact rel_append (related.entries_filter fun blade => (Blade.grade blade : Int) == g) ih

theorem related_partOf {R : α → β → Prop} (related : Related R A B) (k : Int) :
    Related R (partOf A k) (partOf B k) := by
  cases k with
  | ofNat k => exact related.filter _
  | negSucc k => exact related_empty

theorem mirrors_bladeTerms {R : α → β → Prop} {f : Scalar → α} {g : Scalar → β}
    (number : ∀ n : Int, R (f (.ofInt n)) (g (.ofInt n))) (s : Signature) (factors : List Int) :
    Mirrors Excused (Related R) (bladeTerms s factors f) (bladeTerms s factors g) := by
  unfold bladeTerms
  split
  · exact .error
  · split
    · exact .error
    · refine .pure ?_
      split
      · exact related_empty
      · exact related_single _ (number _)

theorem related_inputTerms {R : α → β → Prop} {E : Engine α} {F : Engine β} {source : String}
    (component : ∀ index, R (E.component source index) (F.component source index)) (n : Nat) (grades : List Int) :
    Related R (inputTerms E n source grades) (inputTerms F n source grades) := by
  have read : List.Forall₂ R (components E source (bladesOf n grades).length)
      (components F source (bladesOf n grades).length) := by
    unfold components
    split
    · exact .cons (component none) .nil
    · refine rel_map (R := Eq) ?_ (forall₂_eq_eq_eq ▸ rfl)
      rintro i _ rfl
      exact component (some i)
  refine Related.ofList ?_
  generalize components E source (bladesOf n grades).length = xs at read ⊢
  generalize components F source (bladesOf n grades).length = ys at read ⊢
  generalize bladesOf n grades = blades
  induction read generalizing blades with
  | nil => simp
  | cons coefficients _ ih =>
    cases blades with
    | nil => exact .nil
    | cons blade blades => exact .cons ⟨rfl, coefficients⟩ (ih blades)

section

variable [Add α] [Mul α] [Neg α] [OfNat α 0] [OfNat α 1] [Add β] [Mul β] [Neg β] [OfNat β 0] [OfNat β 1]

/-- What is needed for the operations of one engine to be mirrored by those of another. -/
structure Follows (Excused : Error β → Prop) (R : α → β → Prop) (E : Engine α) (F : Engine β) : Prop where
  laws : Respects R
  one : R 1 1
  divide (s : Signature) {A D : Terms α} {B D' : Terms β} : Related R A B → Related R D D' →
    Mirrors Excused (Related R) (divide E s A D) (divide F s B D')

/-- The first engine is simulated by the second, for exact literals and the host scalars that are known. -/
structure Simulates (R : α → β → Prop) (Known : String → Prop) (E : Engine α) (F : Engine β) : Prop where
  laws : Respects R
  zero : R 0 0
  one : R 1 1
  number (q : Rat) : R (E.number (.exact q)) (F.number (.exact q))
  input {source : String} : Known source → R (E.input source) (F.input source)
  component (source : String) (index : Option Nat) : R (E.component source index) (F.component source index)
  isZero {a : α} {b : β} : R a b → E.isZero a = true → F.isZero b = true
  normal {a : α} {b : β} : R a b → R (E.normal a) (F.normal b)
  inverse {a : α} {b : β} : R a b → F.isZero b = false → R (E.inverse a) (F.inverse b)

variable {R : α → β → Prop} {Known : String → Prop} {E : Engine α} {F : Engine β}

variable {operand : Tree}

theorem evaluate_typed (E : Engine α) (s : Signature) {spec : GradeSpec} (input : ∀ source, operand ≠ .host source) :
    evaluate E s (.typed operand spec) =
      checkedGrades s spec >>= fun grades => evaluate E s operand >>= fun A => pure (selectGrades A grades) := by
  cases operand with
  | host source => exact absurd rfl (input source)
  | _ => rfl

theorem mirrors_typed (s : Signature) {operand' : Tree} (spec : GradeSpec)
    (input : ∀ source, operand ≠ .host source) (input' : ∀ source, operand' ≠ .host source)
    (evaluated : Mirrors Excused (Related R) (evaluate E s operand) (evaluate F s operand')) :
    Mirrors Excused (Related R) (evaluate E s (.typed operand spec)) (evaluate F s (.typed operand' spec)) := by
  rw [evaluate_typed E s input, evaluate_typed F s input']
  refine (mirrors_checkedGrades s spec).bind fun grades _ same => ?_
  subst same
  exact evaluated.bind fun _ _ related => .pure (related_selectGrades related grades)

@[simp] theorem evaluateEach_eq_map (E : Engine α) (s : Signature) (ts : List Tree) :
    evaluateEach E s ts = ts.map fun t => (t, evaluate E s t) := by
  induction ts with
  | nil => rfl
  | cons t ts ih => rw [evaluateEach, map_cons, ih]

theorem mirrors_second (s : Signature) (args : List Tree) : ∀ x ∈ (evaluateEach E s args)[1]?,
    ∀ y ∈ (evaluateEach F s args)[1]?, ∀ slot,
    Mirrors Excused (· = ·) (integerOf slot x.1 : Except (Error α) _) (integerOf slot y.1 : Except (Error β) _) := by
  intro x second y second' slot
  simp only [evaluateEach_eq_map, List.getElem?_map, Option.mem_def, Option.map_eq_some_iff] at second second'
  obtain ⟨t, found, rfl⟩ := second
  obtain ⟨_, found', rfl⟩ := second'
  obtain rfl := Option.some.inj (found.symm.trans found')
  exact mirrors_integerOf slot t

namespace Follows

variable (follows : Follows Excused R E F)
include follows

theorem product (s : Signature) (select : Terms.Selection) {x x' : Except (Error α) (Terms α)}
    {y y' : Except (Error β) (Terms β)} (first : Mirrors Excused (Related R) x y)
    (second : Mirrors Excused (Related R) x' y') :
    Mirrors Excused (Related R) (do return (← x).multiply s select (← x')) (do return (← y).multiply s select (← y')) :=
  first.bind fun _ _ a => second.bind fun _ _ b => .pure (a.multiply follows.laws s select b)

theorem inverseTerms (s : Signature) (related : Related R A B) :
    Mirrors Excused (Related R) (Evaluation.inverse E s A) (Evaluation.inverse F s B) :=
  follows.divide s (related.reverse follows.laws) (related.multiply follows.laws s _ (related.reverse follows.laws))

theorem naturalPower (s : Signature) {A : Terms α} {B : Terms β} (related : Related R A B) (k : Nat) :
    Related R (naturalPower s A k) (naturalPower s B k) := by
  induction k with
  | zero => exact related_single 0 follows.one
  | succ k ih => exact ih.multiply follows.laws s _ related

theorem integerPower (s : Signature) {A : Terms α} {B : Terms β} (related : Related R A B) (n : Int) :
    Mirrors Excused (Related R) (integerPower E s A n) (integerPower F s B n) := by
  cases n with
  | ofNat k => exact .pure (follows.naturalPower s related k)
  | negSucc k => exact (follows.inverseTerms s related).bind fun _ _ inverted => .pure (follows.naturalPower s inverted _)

theorem performed (s : Signature) (op : Op) {xs : List (Tree × Except (Error α) (Terms α))}
    {ys : List (Tree × Except (Error β) (Terms β))}
    (operands : List.Forall₂ (fun x y => Mirrors Excused (Related R) x.2 y.2) xs ys)
    (integers : op = .grade ∨ op = .power → ∀ x ∈ xs[1]?, ∀ y ∈ ys[1]?, ∀ slot,
      Mirrors Excused (· = ·) (integerOf slot x.1 : Except (Error α) _) (integerOf slot y.1 : Except (Error β) _)) :
    Mirrors Excused (Related R) (perform E s op xs) (perform F s op ys) := by
  -- operations are told apart by the number of operands first, so that each wrong number is one case
  rcases operands with _ | ⟨first, _ | ⟨second, _ | ⟨_, _⟩⟩⟩
  · cases op
    case pseudoscalar => exact .pure (related_single _ follows.one)
    all_goals exact .error
  · cases op
    case negate => exact first.bind fun _ _ a => .pure (a.neg follows.laws)
    case reverse => exact first.bind fun _ _ a => .pure (a.reverse follows.laws)
    case involute => exact first.bind fun _ _ a => .pure (a.involute follows.laws)
    case dual => exact first.bind fun _ _ a => .pure (a.multiply follows.laws s _ (related_single _ follows.one))
    case rightComplement => exact first.bind fun _ _ a => .pure (a.rightComplement follows.laws s)
    case leftComplement => exact first.bind fun _ _ a => .pure (a.leftComplement follows.laws s)
    all_goals exact .error
  · have product := fun select => follows.product s select first second
    cases op
    case add => exact first.bind fun _ _ a => second.bind fun _ _ b => .pure (a.add follows.laws b)
    case geometricProduct => exact product .all
    case outerProduct => exact first.bind fun _ _ a => second.bind fun _ _ b => .pure (a.outerProduct follows.laws s b)
    case innerProduct => exact product .inner
    case leftContraction => exact product .left
    case rightContraction => exact product .right
    case scalarProduct => exact product .scalar
    case grade =>
      refine first.bind fun _ _ a => ?_
      exact (integers (.inl rfl) _ rfl _ rfl .grade).bind fun k _ same => same ▸ .pure (related_partOf a k)
    case scalarDivision => exact first.bind fun _ _ a => second.bind fun _ _ b => follows.divide s a b
    case power =>
      refine (integers (.inr rfl) _ rfl _ rfl .exponent).bind fun k _ same => ?_
      subst same
      exact first.bind fun _ _ a => follows.integerPower s a k
    all_goals exact .error
  · cases op
    all_goals exact .error

end Follows

namespace Simulates

variable (sim : Simulates R Known E F)
include sim

theorem divide (s : Signature) {A D : Terms α} {B D' : Terms β} (related : Related R A B)
    (divisor : Related R D D') : Mirrors (· = .zeroDivisor) (Related R) (divide E s A D) (divide F s B D') := by
  unfold Evaluation.divide
  split
  · exact .error
  · rename_i scalar
    have vanish : (D'.entries.any fun e => e.1 != 0 && !F.isZero e.2) = false := by
      unfold Related at divisor
      generalize D.entries = xs at divisor scalar
      generalize D'.entries = ys at divisor ⊢
      induction divisor with
      | nil => rfl
      | @cons x y _ _ pair _ ih =>
        simp only [any_cons, Bool.or_eq_true, not_or, Bool.not_eq_true] at scalar
        rw [any_cons, ih (by simpa using scalar.2), Bool.or_false, ← pair.1]
        by_cases grade : x.1 = 0
        · simp [grade]
        · have zero := sim.isZero pair.2 (by simpa [grade] using scalar.1)
          simp [zero]
    have denominator := sim.normal (divisor.coeff sim.zero 0)
    rw [vanish]
    simp only [Bool.false_eq_true, if_false]
    split
    · exact .error
    · by_cases zero : F.isZero (F.normal (D'.coeff 0)) = true
      · rw [if_pos zero]
        exact fun _ _ => .inl ⟨_, rfl, rfl⟩
      · rw [if_neg zero]
        exact .pure (related.scale sim.laws (sim.inverse denominator (by simpa using zero)))

theorem follows : Follows (· = .zeroDivisor) R E F := ⟨sim.laws, sim.one, sim.divide⟩

end Simulates

mutual

theorem Simulates.mirrors (sim : Simulates R Known E F) (s : Signature) : ∀ t : Tree,
    (∀ v ∈ t.literals, ∃ q, v = .exact q) → (∀ source ∈ t.scalars, Known source) →
    Mirrors (· = .zeroDivisor) (Related R) (evaluate E s t) (evaluate F s t)
  | .literal v, literals, _ => by
    obtain ⟨q, rfl⟩ := literals v (by simp)
    exact .pure (related_single 0 (sim.number q))
  | .host source, _, known => .pure (related_single 0 (sim.input (known source (by simp [Tree.scalars]))))
  | .blade factors, _, _ => mirrors_bladeTerms (fun n => sim.number n) s factors
  | .typed operand spec, literals, known => by
    by_cases input : ∃ source, operand = .host source
    · obtain ⟨source, rfl⟩ := input
      refine (mirrors_checkedGrades s spec).bind fun grades _ same => ?_
      subst same
      exact .pure (related_inputTerms (sim.component source) s.dimension grades)
    · have noInput : ∀ source, operand ≠ .host source := fun source same => input ⟨source, same⟩
      rw [Tree.scalars_typed noInput] at known
      exact mirrors_typed s spec noInput noInput (sim.mirrors s operand literals known)
  | .operation op args, literals, known => by
    rw [Tree.literals_operation] at literals
    rw [Tree.scalars] at known
    refine sim.follows.performed s op (sim.mirrorsEach s args ?_ known) fun _ => mirrors_second s args
    exact fun t mem v within => literals v (mem_flatMap.mpr ⟨t, mem, within⟩)
  | .symbol _, _, _ => .error
  | .call _ _, _, _ => .error
  | .argument _, _, _ => .error
  | .unknown, _, _ => .error

theorem Simulates.mirrorsEach (sim : Simulates R Known E F) (s : Signature) : ∀ ts : List Tree,
    (∀ t ∈ ts, ∀ v ∈ t.literals, ∃ q, v = .exact q) → (∀ source ∈ Tree.scalarsAll ts, Known source) →
    List.Forall₂ (fun x y => Mirrors (· = .zeroDivisor) (Related R) x.2 y.2) (evaluateEach E s ts) (evaluateEach F s ts)
  | [], _, _ => .nil
  | t :: ts, literals, known => by
    simp only [mem_cons, forall_eq_or_imp] at literals
    simp only [Tree.scalarsAll, mem_append, or_imp, forall_and] at known
    exact .cons (sim.mirrors s t literals.1 known.1) (sim.mirrorsEach s ts literals.2 known.2)

end

theorem Simulates.evaluated (sim : Simulates R Known E F) (s : Signature) (t : Tree)
    (literals : ∀ v ∈ t.literals, ∃ q, v = .exact q) (known : ∀ source ∈ t.scalars, Known source) (A : Terms α)
    (evaluated : evaluate E s t = .ok A) :
    evaluate F s t = .error .zeroDivisor ∨ ∃ B, evaluate F s t = .ok B ∧ Related R A B := by
  rcases sim.mirrors s t literals known A evaluated with ⟨e, stopped, rfl⟩ | found
  · exact .inl stopped
  · exact .inr found

end

end Evaluation

end Bladewright
