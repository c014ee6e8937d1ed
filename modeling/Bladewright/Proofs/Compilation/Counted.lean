import Bladewright.Proofs.Compilation.Stages
import Bladewright.Proofs.Code.Layout
import Bladewright.Proofs.Evaluation.Outcomes
import Bladewright.Proofs.Expansion.Cycles
import Bladewright.Proofs.Surface.Trees

/-!
No stage refuses what the stage before it has let through. Reading yields no operations, and those of the built-in
table have as many operands as they take.
-/
namespace Bladewright

open List Outcome Evaluation

namespace Tree

theorem IsSurface.isCounted {t : Tree} (surface : t.IsSurface) : t.IsCounted := by
  intro node below
  have known := surface node below
  cases node with
  | operation op args => cases known
  | unknown => cases known
  | _ => rfl

end Tree

namespace Table

/-- All bindings are trees of known nodes, in which operations have as many operands as they take. -/
def IsCounted (table : Table) : Prop := ∀ t ∈ table.trees, t.IsCounted

theorem isCounted_primitive (op : Op) : (Builtin.primitive op).body.IsCounted := by
  refine Tree.every_operation.mpr ⟨by simp [Tree.isCounted], ?_⟩
  rw [forall_mem_map]
  exact fun i _ => (Tree.every_of_leaf rfl).mpr rfl

theorem isCounted_derived : ∀ entry ∈ Builtin.derived, entry.2.body.IsCounted := by
  show ∀ entry ∈ Builtin.derived, ∀ node ∈ entry.2.body.walk, node.isCounted = true
  decide

theorem isCounted_initial (builtins warns : Bool) : (initial builtins warns).IsCounted := by
  cases builtins with
  | false => exact fun _ mem => by cases mem
  | true =>
    show ∀ t ∈ Builtin.references.map (·.2) ++ Builtin.functions.map (·.2.body), t.IsCounted
    rw [forall_mem_append, forall_mem_map, forall_mem_map, Builtin.functions, forall_mem_append,
      forall_mem_map]
    refine ⟨?_, fun op _ => isCounted_primitive op, isCounted_derived⟩
    exact forall_mem_singleton.mpr (Tree.every_call.mpr ⟨rfl, by simp⟩)

variable {table table' : Table}

theorem IsCounted.define (counted : table.IsCounted) {name : String} {binding : Binding}
    (own : binding.tree.IsCounted) (defined : table.define name binding = .ok table') : table'.IsCounted := by
  intro t mem
  rcases mem_trees_define defined mem with rfl | mem
  · exact own
  · exact counted t mem

theorem IsCounted.defineAll (counted : table.IsCounted) {bindings : List (String × Binding)}
    (own : ∀ entry ∈ bindings, entry.2.tree.IsCounted) (defined : table.defineAll bindings = .ok table') :
    table'.IsCounted := by
  intro t mem
  rcases mem_trees_defineAll defined mem with listed | mem
  · obtain ⟨entry, given, rfl⟩ := mem_map.mp listed
    exact own entry given
  · exact counted t mem

open Session

theorem IsCounted.bindReferences {specs : List (String × ReferenceSpec)} (counted : table.IsCounted)
    (texts : ∀ entry ∈ specs, ∃ source, entry.2 = .text source)
    (returns : (table.bindReferences specs).Returns table') : table'.IsCounted := by
  induction specs generalizing table with
  | nil => exact returns.pure ▸ counted
  | cons entry rest ih =>
    rw [forall_mem_cons] at texts
    obtain ⟨name, spec⟩ := entry
    obtain ⟨⟨source, rfl⟩, texts⟩ := texts
    obtain ⟨rhs, read, returns⟩ := returns.bind
    obtain ⟨next, stored, returns⟩ := returns.bind
    rw [ReferenceSpec.read] at read
    have own : (Binding.reference rhs).tree.IsCounted := (Surface.isSurface_readExpression read.settle).isCounted
    exact ih (counted.define own (define_of_returns stored)) texts returns

theorem IsCounted.bindFunctions {specs : List (String × FunctionSpec)} (counted : table.IsCounted)
    (texts : ∀ entry ∈ specs, ∃ source, entry.2 = .text source)
    (returns : (table.bindFunctions specs).Returns table') : table'.IsCounted := by
  induction specs generalizing table with
  | nil => exact returns.pure ▸ counted
  | cons entry rest ih =>
    rw [forall_mem_cons] at texts
    obtain ⟨name, spec⟩ := entry
    obtain ⟨⟨source, rfl⟩, texts⟩ := texts
    obtain ⟨f, read, returns⟩ := returns.bind
    obtain ⟨next, stored, returns⟩ := returns.bind
    rw [FunctionSpec.read] at read
    have own : (Binding.function f).tree.IsCounted := (Surface.isSurface_readFunction read.settle).isCounted
    exact ih (counted.define own (define_of_returns stored)) texts returns

end Table

def TableSpec.IsText (spec : TableSpec) : Prop :=
  (∀ entry ∈ spec.references, ∃ source, entry.2 = .text source) ∧
    ∀ entry ∈ spec.functions, ∃ source, entry.2 = .text source

theorem TableSpec.isCounted_build {spec : TableSpec} {table : Table} (texts : spec.IsText)
    (built : spec.build.outcome.1 = .ok table) : table.IsCounted := by
  obtain ⟨middle, references, functions⟩ := (Session.returns_of_outcome built).bind
  exact ((Table.isCounted_initial _ _).bindReferences texts.1 references).bindFunctions texts.2 functions

namespace Expansion

/-- Whether an error can only be met on a tree that reading never yields. -/
def Error.isInternal : Error → Bool
  | unknownNode _ => true
  | _ => false

theorem keeps_isCounted : Keeps (fun node => node.isCounted = true) (fun _ t => t.IsCounted) := by
  refine keeps_every (fun _ => rfl) (fun _ => rfl) (fun _ => rfl) (fun _ _ => rfl) fun counted length => ?_
  simpa [Tree.isCounted, length] using counted

theorem placeholder_error {frame : Frame} {index : Int} {e : Error} (failed : placeholder frame index = .error e) :
    e.isInternal = false := by
  unfold placeholder at failed
  cases frame with
  | none =>
    cases failed
    rfl
  | some args =>
    simp only at failed
    split at failed
    · cases failed
      rfl
    · split at failed
      · split at failed
        · cases failed
        · cases failed
          rfl
      · cases failed
        rfl

variable {table : Table}

mutual

theorem Visits.error_of_counted {stack : List Key} {host : Bool} {frame : Frame} {tree : Tree}
    {trail : List (List Key)} {outcome : Except Error Tree} (bound : table.IsCounted) :
    Visits table stack host frame tree trail outcome → tree.IsCounted → ∀ e, outcome = .error e → e.isInternal = false
  | .unknown .. => by
    intro own
    cases (Tree.every_of_leaf rfl).mp own
  | .argument .. => by
    intro _ e failed
    exact placeholder_error failed
  | .typed visits => by
    intro own e failed
    exact Visits.error_of_counted bound visits (Tree.every_typed.mp own).2 e (of_map_error failed)
  | .operation visits => by
    intro own e failed
    exact VisitsAll.error_of_counted bound visits (Tree.every_operation.mp own).2 e (of_map_error failed)
  | .reference found _ visits => by
    intro _ e failed
    exact Visits.error_of_counted bound visits (bound _ (mem_trees_of_reference found)) e failed
  | .hostCallError _ read => by
    rintro _ _ ⟨⟩
    rcases hostSource_error read with rfl | ⟨index, rfl⟩ <;> rfl
  | .argumentsError _ _ _ visits => by
    rintro own _ ⟨⟩
    exact VisitsAll.error_of_counted bound visits (Tree.every_call.mp own).2 _ rfl
  | .function found _ _ _ visits' => by
    intro _ e failed
    exact Visits.error_of_counted bound visits' (bound _ (mem_trees_of_function found)) e failed
  | .referenceCycle .. | .unboundName .. | .longName .. | .unboundCall .. | .wrongArity .. | .functionCycle .. => by
    rintro _ _ ⟨⟩
    rfl
  | .literal .. | .blade .. | .host .. | .selfTyped .. | .hostName .. | .bladeName .. | .hostCall .. => by
    rintro _ _ ⟨⟩

theorem VisitsAll.error_of_counted {stack : List Key} {frame : Frame} {trees : List Tree}
    {trail : List (List Key)} {outcome : Except Error (List Tree)} (bound : table.IsCounted) :
    VisitsAll table stack frame trees trail outcome → (∀ t ∈ trees, t.IsCounted) →
    ∀ e, outcome = .error e → e.isInternal = false
  | .nil .. => by
    rintro _ _ ⟨⟩
  | .error visits => by
    rintro own _ ⟨⟩
    exact Visits.error_of_counted bound visits (own _ mem_cons_self) _ rfl
  | .cons _ visits' => by
    intro own e failed
    rw [forall_mem_cons] at own
    exact VisitsAll.error_of_counted bound visits' own.2 e (of_map_error failed)

end

theorem expand_error_of_counted (bound : table.IsCounted) {tree : Tree} (own : tree.IsCounted) {e : Error}
    (failed : expand table tree = .error e) : e.isInternal = false := by
  obtain ⟨trail, visits⟩ := visits_expand table tree
  exact visits.error_of_counted bound own e failed

theorem isCounted_expand (bound : table.IsCounted) {tree expanded : Tree} (own : tree.IsCounted)
    (done : expand table tree = .ok expanded) : expanded.IsCounted := keeps_isCounted.expand bound own done

end Expansion

theorem Evaluation.evaluateMultivector_eq (s : Signature) (tree : Tree) :
    evaluateMultivector s tree = (evaluate symbolic s tree).map (Multivector.mk s) := by
  unfold evaluateMultivector
  cases evaluate symbolic s tree <;> rfl

/-- On a table that is given by text, whatever program is put on top of it, expansion and evaluation end without an
internal error: evaluation gets a tree of nodes that it knows, with as many operands as operations take. The result
is laid out, and its partition by grade is not empty. -/
theorem stages_not_internal {spec : TableSpec} (texts : spec.IsText) {table : Table}
    (built : spec.build.outcome.1 = .ok table) {source : Surface.Source} {program : Surface.Program}
    (read : Surface.readProgram source = .ok program) {bound : Table}
    (defined : table.defineAll program.bindings = .ok bound) (s : Signature) :
    (∀ e, Expansion.expand bound program.expression = .error e → e.isInternal = false) ∧
    ∀ expanded, Expansion.expand bound program.expression = .ok expanded →
      expanded.IsExpanded ∧ expanded.IsCounted ∧
      (∀ e, evaluateMultivector s expanded = .error e → e.isInternal = false) ∧
      ∀ A, evaluateMultivector s expanded = .ok A →
        Result.ofMultivector A ≠ .parts [] ∧ ∃ l, Layout.ofResult (.ofMultivector A) = .ok l ∧ l.grades ≠ [] := by
  obtain ⟨bindings, expression⟩ := Surface.isSurface_readProgram read
  have known : bound.IsCounted := (spec.isCounted_build texts built).defineAll
    (fun entry mem => (bindings entry mem).isCounted) defined
  refine ⟨fun e failed => Expansion.expand_error_of_counted known expression.isCounted failed, ?_⟩
  intro expanded done
  have left := Expansion.isExpanded_expand done
  have counted := Expansion.isCounted_expand known expression.isCounted done
  refine ⟨left, counted, fun e failed => ?_, fun A evaluated => ?_⟩
  · rw [evaluateMultivector_eq] at failed
    exact evaluate_error_of_known left counted (of_map_error failed)
  · rw [evaluateMultivector_eq] at evaluated
    obtain ⟨terms, valued, rfl⟩ := of_map evaluated
    have within := within_evaluate valued
    have laid := Layout.ofResult_ofMultivector (A := ⟨s, terms⟩) within
    refine ⟨fun empty => ?_, _, laid, (Layout.holds_ofMultivector (A := ⟨s, terms⟩) within).present⟩
    rw [empty] at laid
    cases laid

/-- What a program expands to on top of a table, if the table is built and all stages up to expansion succeed. -/
def expansion? (spec : TableSpec) (source : Surface.Source) : Option Tree := do
  let table ← spec.build.outcome.1.toOption
  let program ← (Surface.readProgram source).toOption
  let bound ← (table.defineAll program.bindings).toOption
  (Expansion.expand bound program.expression).toOption

theorem of_expansion? {spec : TableSpec} {source : Surface.Source} {expanded : Tree}
    (done : expansion? spec source = some expanded) : ∃ table program bound,
      spec.build.outcome.1 = .ok table ∧ Surface.readProgram source = .ok program ∧
      table.defineAll program.bindings = .ok bound ∧ Expansion.expand bound program.expression = .ok expanded := by
  obtain ⟨table, built, done⟩ := Option.bind_eq_some_iff.mp done
  obtain ⟨program, read, done⟩ := Option.bind_eq_some_iff.mp done
  obtain ⟨bound, defined, done⟩ := Option.bind_eq_some_iff.mp done
  exact ⟨table, program, bound, of_toOption built, of_toOption read, of_toOption defined,
    of_toOption done⟩

def doublingSpec : TableSpec where
  references := [("k", .text "2 * e1")]
  functions := [("twice", .text "lambda a: a + a")]
  warns := true
  builtins := true

def doublingProgram : Surface.Source := .text "x: Vector\ntwice(x) ^ k"

theorem stages_not_internal_doubling : ∃ table program bound expanded,
    doublingSpec.build.outcome.1 = .ok table ∧ Surface.readProgram doublingProgram = .ok program ∧
    table.defineAll program.bindings = .ok bound ∧ Expansion.expand bound program.expression = .ok expanded ∧
    expanded.IsExpanded ∧ expanded.IsCounted ∧
    ∀ e, evaluateMultivector ⟨3, 0, 0⟩ expanded = .error e → e.isInternal = false := by
  have runs : (expansion? doublingSpec doublingProgram).isSome = true := by decide +kernel
  have texts : doublingSpec.IsText := by simp [TableSpec.IsText, doublingSpec]
  obtain ⟨expanded, runs⟩ := Option.isSome_iff_exists.mp runs
  obtain ⟨table, program, bound, built, read, defined, done⟩ := of_expansion? runs
  obtain ⟨left, counted, evaluation, -⟩ := (stages_not_internal texts built read defined ⟨3, 0, 0⟩).2 expanded done
  exact ⟨table, program, bound, expanded, built, read, defined, done, left, counted, evaluation⟩

end Bladewright
