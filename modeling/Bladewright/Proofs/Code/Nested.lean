import Bladewright.Evaluation.Symbolic
import Bladewright.Proofs.Code.Layout
import Bladewright.Proofs.Evaluation.Outcomes
import Bladewright.Proofs.Host.Objects

/-!
Nested code: one object for each grade, made of the components that flattened code lists without a cut
(`generate_nested`, `generate_flattened_grades`).
-/
namespace Bladewright.Code

open Host Layout

def emitGrades (l : Layout) : Except Error (List (Int × List Expr)) :=
  l.grades.mapM fun part => (emitAll part.2).map (part.1, ·)

def flattenedCode (groups : List (Int × List Expr)) : Expr := .tuple (groups.flatMap (·.2))

/-- The object of each grade in `n` dimensions, in a tuple unless there is just one. -/
def nestedCode (n : Nat) (groups : List (Int × List Expr)) : Expr :=
  match groups.map fun group => construct (kvectorType group.1 n) group.2 with
  | [object] => object
  | objects => .tuple objects

theorem emitAll_flatMap (parts : List (Int × List Coeff)) : emitAll (parts.flatMap (·.2)) =
      (parts.mapM fun part => (emitAll part.2).map (part.1, ·)).map fun groups => groups.flatMap (·.2) := by
  induction parts with
  | nil => rfl
  | cons part parts ih =>
    have split : emitAll (part.2 ++ parts.flatMap (·.2)) =
        (do return (← emitAll part.2) ++ (← emitAll (parts.flatMap (·.2)))) := List.mapM_append
    rw [List.flatMap_cons, split, ih, List.mapM_cons]
    cases emitAll part.2 with
    | error e => rfl
    | ok es =>
      cases parts.mapM fun part => (emitAll part.2).map (part.1, ·) with
      | error e => rfl
      | ok groups => rfl

variable {result : Result} {l : Layout}

theorem build_flattened_components : build l .flattened none = (emitAll l.components).map .tuple := by
  show (emitAll l.components >>= fun elements => pure (Expr.tuple elements)) = _
  cases emitAll l.components <;> rfl

theorem build_flattened : build l .flattened none = (emitGrades l).map flattenedCode := by
  rw [build_flattened_components, components, emitAll_flatMap, emitGrades]
  cases l.grades.mapM fun part => (emitAll part.2).map (part.1, ·) <;> rfl

theorem build_nested : build l .nested none = (emitGrades l).map (nestedCode l.dimension) := by
  have built : build l .nested none =
      (l.grades.mapM (fun part => (emitAll part.2 >>= fun es => pure (construct (kvectorType part.1 l.dimension) es)))
        >>= fun objects => match objects with
          | [object] => pure object
          | _ => pure (.tuple objects)) := rfl
  have objects : (l.grades.mapM fun part =>
        (emitAll part.2 >>= fun es => pure (construct (kvectorType part.1 l.dimension) es))) =
      (emitGrades l).map (List.map fun group => construct (kvectorType group.1 l.dimension) group.2) := by
    rw [emitGrades, ← Outcome.mapM_map]
    refine congrArg l.grades.mapM (funext fun part => ?_)
    cases emitAll part.2 <;> rfl
  rw [built, objects]
  cases emitGrades l with
  | error e => rfl
  | ok groups =>
    match groups with
    | [] | [_] | _ :: _ :: _ => rfl

theorem generate_eq_build (laid : ofResult result = .ok l) {style : Style} {mode : Mode} {type : Option Expr}
    (read : style.read = .ok (mode, type)) : generate result style = build l mode type := by
  rw [generate, laid, read]
  rfl

theorem generate_flattened_components (laid : ofResult result = .ok l) :
    generate result ⟨"flattened", none⟩ = (emitAll l.components).map .tuple :=
  (generate_eq_build laid rfl).trans build_flattened_components

theorem generate_flattened_grades (laid : ofResult result = .ok l) :
    generate result ⟨"flattened", none⟩ = (emitGrades l).map flattenedCode :=
  (generate_eq_build laid rfl).trans build_flattened

theorem generate_nested (laid : ofResult result = .ok l) :
    generate result ⟨"nested", none⟩ = (emitGrades l).map (nestedCode l.dimension) :=
  (generate_eq_build laid rfl).trans build_nested

theorem length_emitAll {components : List Coeff} {elements : List Expr} (emitted : emitAll components = .ok elements) :
    elements.length = components.length := (Outcome.of_mapM emitted).length_eq.symm

variable {groups : List (Int × List Expr)}

theorem of_mem_emitGrades (emitted : emitGrades l = .ok groups) {group : Int × List Expr} (mem : group ∈ groups) :
    ∃ part ∈ l.grades, group.1 = part.1 ∧ group.2.length = part.2.length := by
  obtain ⟨part, listed, done⟩ := Outcome.mem_of_mapM emitted mem
  obtain ⟨elements, codes, rfl⟩ := Outcome.of_map done
  exact ⟨part, listed, rfl, length_emitAll codes⟩

theorem length_flatMap_emitGrades (emitted : emitGrades l = .ok groups) : (groups.flatMap (·.2)).length = l.count := by
  have all := emitAll_flatMap l.grades
  rw [← emitGrades, emitted] at all
  exact length_emitAll all

/-- Evaluated terms are laid out without loss: every coefficient stands once, in its grade and at its place. Flattened
and nested code hold the same component codes, and whatever these evaluate to, every object of nested code is
built. -/
theorem layout_lossless {s : Signature} {tree : Tree} {A : Multivector}
    (evaluated : Evaluation.evaluateMultivector s tree = .ok A) :
    ∃ l, ofResult (.ofMultivector A) = .ok l ∧ l.Holds s.dimension A.terms ∧
      generate (.ofMultivector A) ⟨"flattened", none⟩ = (emitGrades l).map flattenedCode ∧
      generate (.ofMultivector A) ⟨"nested", none⟩ = (emitGrades l).map (nestedCode s.dimension) ∧
      ∀ groups, emitGrades l = .ok groups →
        l.count = (groups.flatMap (·.2)).length ∧
        ∀ group ∈ groups, group.2.length = s.dimension.choose group.1.toNat ∧
          ∀ env : Environment, env.KeepsContract → ∀ values,
            List.Forall₂ (fun e v => env.evaluate e = .ok v) group.2 values →
              env.evaluate (construct (kvectorType group.1 s.dimension) group.2) =
                .ok (.kvector group.1 s.dimension values) := by
  obtain ⟨terms, valued, ⟨⟩⟩ := Outcome.of_bind evaluated
  have within := Evaluation.within_evaluate valued
  have laid := ofResult_ofMultivector (A := ⟨s, terms⟩) within
  have holds := holds_ofMultivector (A := ⟨s, terms⟩) within
  refine ⟨_, laid, holds, generate_flattened_grades laid, generate_nested laid, fun groups emitted => ?_⟩
  refine ⟨(length_flatMap_emitGrades emitted).symm, fun group mem => ?_⟩
  obtain ⟨part, listed, same, length⟩ := of_mem_emitGrades emitted mem
  have complete : group.2.length = s.dimension.choose group.1.toNat := by
    rw [length, same, holds.complete part listed]
  refine ⟨complete, fun env contractual values each => ?_⟩
  exact Environment.evaluate_construct contractual (same ▸ holds.exist part listed)
    (each.length_eq.symm.trans complete) each

def inputPlusPlane : Tree := .operation .add [.host "x", .blade [0, 1]]

def inputPlusPlaneValue : Multivector := ⟨⟨2, 0, 0⟩, [(0, .sym "x"), (3, .num 1)], by decide⟩

theorem layout_lossless_plane : Evaluation.evaluateMultivector ⟨2, 0, 0⟩ inputPlusPlane = .ok inputPlusPlaneValue ∧
      ∃ l, ofResult (.ofMultivector inputPlusPlaneValue) = .ok l ∧ l.Holds 2 inputPlusPlaneValue.terms ∧
        generate (.ofMultivector inputPlusPlaneValue) ⟨"nested", none⟩ = (emitGrades l).map (nestedCode 2) := by
  have evaluated : Evaluation.evaluateMultivector ⟨2, 0, 0⟩ inputPlusPlane = .ok inputPlusPlaneValue := by rfl
  obtain ⟨l, laid, holds, -, nested, -⟩ := layout_lossless evaluated
  exact ⟨evaluated, l, laid, holds, nested⟩

end Bladewright.Code
