import Bladewright.Evaluation.Symbolic
import Bladewright.Proofs.Code.Layout
import Bladewright.Proofs.Evaluation.Outcomes

/-!
The shape of a result does not depend on numbers.
-/
namespace Bladewright

open List Evaluation Multivector

namespace Tree

mutual

/-- Trees that differ at most in the values of literals, but not in a literal grade or exponent. -/
inductive Renumbered : Tree → Tree → Prop
  | same (t : Tree) : Renumbered t t
  | literal (c d : Scalar) : Renumbered (.literal c) (.literal d)
  | typed {t u : Tree} (spec : GradeSpec) : Renumbered t u → Renumbered (.typed t spec) (.typed u spec)
  | operation {op : Op} {ts us : List Tree} (operands : RenumberedEach ts us)
    (integer : op = .grade ∨ op = .power →
      ∀ c d, ts[1]? = some (.literal c) → us[1]? = some (.literal d) → c = d) :
    Renumbered (.operation op ts) (.operation op us)

inductive RenumberedEach : List Tree → List Tree → Prop
  | nil : RenumberedEach [] []
  | cons {t u : Tree} {ts us : List Tree} : Renumbered t u → RenumberedEach ts us →
    RenumberedEach (t :: ts) (u :: us)

end

theorem Renumbered.host_iff {t u : Tree} (renumbered : Renumbered t u) (source : String) :
    t = .host source ↔ u = .host source := by
  cases renumbered with
  | same => rfl
  | _ => exact iff_of_false (by simp) (by simp)

end Tree

namespace Evaluation

open Terms (Related related_single)

variable {α : Type}

/-- The same blades in the same order, whatever the coefficients. -/
abbrev SameBlades (A B : Terms α) : Prop := Related (fun _ _ => True) A B

/-- If both evaluations succeed, their results have the same blades. -/
abbrev Alike (left right : Except (Error α) (Terms α)) : Prop := Mirrors (fun _ => True) SameBlades left right

theorem alike_self (outcome : Except (Error α) (Terms α)) : Alike outcome outcome := by
  rintro A rfl
  exact .inr ⟨A, rfl, forall₂_same.mpr fun _ _ => ⟨rfl, trivial⟩⟩

theorem mirrors_integer (slot : Slot) {t u : Tree} (agree : ∀ c d, t = .literal c → u = .literal d → c = d) :
    Mirrors (fun _ => True) (· = ·) (integerOf slot t : Except (Error α) Int)
      (integerOf slot u : Except (Error α) Int) := by
  cases t with
  | literal c =>
    cases u with
    | literal d =>
      obtain rfl := agree c d rfl rfl
      exact mirrors_integerOf slot _
    | _ => exact fun _ _ => .inl ⟨_, rfl, trivial⟩
  | _ => exact .error

variable [Add α] [Mul α] [Neg α] [OfNat α 0] [OfNat α 1]

theorem follows_itself (engine : Engine α) : Follows (fun _ => True) (fun _ _ => True) engine engine where
  laws := ⟨fun _ _ => trivial, fun _ _ => trivial, fun _ => trivial⟩
  one := trivial
  divide s A D B D' related divisor := by
    intro quotient divided
    cases divided' : divide engine s B D' with
    | error e => exact .inl ⟨e, rfl, trivial⟩
    | ok quotient' =>
      refine .inr ⟨quotient', rfl, ?_⟩
      simp only [divide] at divided divided'
      split at divided
      · cases divided
      split at divided
      · cases divided
      split at divided'
      · cases divided'
      split at divided'
      · cases divided'
      cases divided
      cases divided'
      exact related.map fun _ _ _ _ => trivial

mutual

theorem alike_evaluate (engine : Engine α) (s : Signature) : ∀ {t u : Tree}, Tree.Renumbered t u →
    Alike (evaluate engine s t) (evaluate engine s u)
  | _, _, .same t => alike_self _
  | _, _, .literal c d => .pure (related_single 0 trivial)
  | _, _, .typed (t := t) (u := u) spec operand => by
    by_cases input : ∃ source, t = .host source
    · obtain ⟨source, rfl⟩ := input
      obtain rfl := (operand.host_iff source).mp rfl
      exact alike_self _
    · have noInput : ∀ source, t ≠ .host source := fun source same => input ⟨source, same⟩
      exact mirrors_typed s spec noInput (fun source same => noInput source ((operand.host_iff source).mpr same))
        (alike_evaluate engine s operand)
  | _, _, .operation operands integer => by
    refine (follows_itself engine).performed s _ (alike_evaluateEach engine s operands)
      fun needed x second y second' slot => ?_
    simp only [evaluateEach_eq_map, List.getElem?_map, Option.mem_def, Option.map_eq_some_iff] at second second'
    obtain ⟨t, found, rfl⟩ := second
    obtain ⟨u, found', rfl⟩ := second'
    refine mirrors_integer slot fun c d left right => ?_
    exact integer needed c d (found.trans (congrArg some left)) (found'.trans (congrArg some right))

theorem alike_evaluateEach (engine : Engine α) (s : Signature) : ∀ {ts us : List Tree}, Tree.RenumberedEach ts us →
    List.Forall₂ (fun x y => Alike x.2 y.2) (evaluateEach engine s ts) (evaluateEach engine s us)
  | _, _, .nil => .nil
  | _, _, .cons first rest => .cons (alike_evaluate engine s first) (alike_evaluateEach engine s rest)

end

theorem blades_evaluate {engine : Engine α} {s : Signature} {t u : Tree} (renumbered : Tree.Renumbered t u)
    {A B : Terms α} (left : evaluate engine s t = .ok A) (right : evaluate engine s u = .ok B) :
    A.blades = B.blades := by
  rcases alike_evaluate engine s renumbered A left with ⟨e, stopped, -⟩ | ⟨B', found, same⟩
  · cases stopped.symm.trans right
  · cases found.symm.trans right
    exact same.blades_eq

end Evaluation

/-! ### What follows from the blades -/

/-- How a result is cut, and which blades there are: of the whole, or of every part with its grade. -/
def Result.outline : Result → List Nat ⊕ List (Int × List Nat)
  | whole A => .inl A.terms.blades
  | parts grades => .inr (grades.map fun part => (part.1, part.2.terms.blades))

namespace Multivector

variable {A B : Multivector}

theorem grades_congr (blades : A.terms.blades = B.terms.blades) : A.grades = B.grades := by
  rw [grades, grades, blades]

theorem blades_gradePart (A : Multivector) (k : Nat) :
    (A.gradePart k).terms.blades = A.terms.blades.filter (Blade.grade · == k) := by
  rw [gradePart, Terms.gradePart, Terms.blades, Terms.filter, Terms.blades, filter_map]
  rfl

theorem outline_ofMultivector (A : Multivector) :
    (Result.ofMultivector A).outline =
      if 2 ≤ A.grades.length then
        .inr (A.grades.map fun k : Nat => ((k : Int), A.terms.blades.filter (Blade.grade · == k)))
      else .inl A.terms.blades := by
  have parts : A.partition = A.grades.map fun k => (k, A.gradePart k) := rfl
  simp only [Result.ofMultivector, parts]
  generalize A.grades = grades
  rcases grades with _ | ⟨k, _ | ⟨k', grades⟩⟩
  · rfl
  · rfl
  · simp [Result.outline, blades_gradePart]

end Multivector

namespace Layout

/-- The number of components is that of all blades of the grades that are present, and one if there is none. -/
theorem count_ofMultivector (A : Multivector) :
    (ofMultivector A).count =
      if A.grades = [] then 1 else (A.grades.flatMap (Blade.ofGrade A.signature.dimension)).length := by
  split
  · rename_i bare
    rw [ofMultivector_of_empty bare]
    rfl
  · rename_i full
    rw [count, components, grades_ofMultivector A full, flatMap_map, length_flatMap, length_flatMap]
    simp

end Layout

/-- The shape of a result is independent of numbers. Trees that differ only in the values of literals, and not in a
grade or an exponent, have results over the same blades if both evaluate. So the results have the same grades, are
cut in the same way, and have the same number of components. -/
theorem shape_independent_of_numbers {s : Signature} {t u : Tree} (renumbered : t.Renumbered u) {A B : Multivector}
    (left : evaluateMultivector s t = .ok A) (right : evaluateMultivector s u = .ok B) :
    A.terms.blades = B.terms.blades ∧ A.grades = B.grades ∧
      (Result.ofMultivector A).outline = (Result.ofMultivector B).outline ∧
      ∃ l l', Layout.ofResult (.ofMultivector A) = .ok l ∧ Layout.ofResult (.ofMultivector B) = .ok l' ∧
        l.count = l'.count := by
  obtain ⟨terms, evaluated, ⟨⟩⟩ := Outcome.of_bind left
  obtain ⟨terms', evaluated', ⟨⟩⟩ := Outcome.of_bind right
  have blades : terms.blades = terms'.blades := blades_evaluate renumbered evaluated evaluated'
  have grades : (mk s terms).grades = (mk s terms').grades := grades_congr blades
  refine ⟨blades, grades, ?_, _, _, Layout.ofResult_ofMultivector (within_evaluate evaluated),
    Layout.ofResult_ofMultivector (within_evaluate evaluated'), ?_⟩
  · rw [outline_ofMultivector, outline_ofMultivector, grades, blades]
  · rw [Layout.count_ofMultivector, Layout.count_ofMultivector, grades]

def numbered (a b c : Int) : Tree :=
  .operation .add
    [.operation .geometricProduct [.literal (.ofInt a), .blade [0]],
      .operation .scalarDivision
        [.operation .grade
          [.operation .power [.operation .add [.literal (.ofInt b), .blade [0, 1]], .literal (.ofInt 2)],
            .literal (.ofInt 2)],
          .literal (.ofInt c)]]

theorem renumbered_numbered (a b c a' b' c' : Int) : (numbered a b c).Renumbered (numbered a' b' c') := by
  refine .operation (.cons ?_ (.cons ?_ .nil)) (by simp)
  · exact .operation (.cons (.literal _ _) (.cons (.same _) .nil)) (by simp)
  refine .operation (.cons ?_ (.cons (.literal _ _) .nil)) (by simp)
  refine .operation (.cons ?_ (.cons (.same _) .nil)) (by simp)
  refine .operation (.cons ?_ (.cons (.same _) .nil)) (by simp)
  exact .operation (.cons (.literal _ _) (.cons (.same _) .nil)) (by simp)

theorem shape_of_vanishing : ∃ A B, evaluateMultivector ⟨2, 0, 0⟩ (numbered 5 2 3) = .ok A ∧
    evaluateMultivector ⟨2, 0, 0⟩ (numbered 0 0 7) = .ok B ∧ A.terms.blades = [1, 3] ∧
    B.terms.blades = [1, 3] ∧ A.grades = B.grades ∧
    (Result.ofMultivector A).outline = (Result.ofMultivector B).outline := by
  generalize left : evaluateMultivector ⟨2, 0, 0⟩ (numbered 5 2 3) = outcome
  generalize right : evaluateMultivector ⟨2, 0, 0⟩ (numbered 0 0 7) = outcome'
  have computed : outcome.toOption.map (·.terms.blades) = some [1, 3] := by
    rw [← left]
    decide +kernel
  have computed' : outcome'.toOption.isSome = true := by
    rw [← right]
    decide +kernel
  cases outcome with
  | error e => cases computed
  | ok A =>
    cases outcome' with
    | error e => cases computed'
    | ok B =>
      obtain ⟨blades, grades, outline, -⟩ := shape_independent_of_numbers (renumbered_numbered 5 2 3 0 0 7) left right
      have listed : A.terms.blades = [1, 3] := Option.some.inj computed
      exact ⟨A, B, rfl, rfl, listed, blades.symm.trans listed, grades, outline⟩

end Bladewright
