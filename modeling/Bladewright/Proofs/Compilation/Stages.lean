import Bladewright.Compilation
import Bladewright.Proofs.Expansion.Literals

/-!
The stages of a compilation. A session that returns a value has run each of its steps with success, whatever it
recorded, so a compilation is what its stages make of the program one after the other (`compile_stages`).
-/
namespace Bladewright

open List Host

namespace Session

/-- A session can return a value, from some record of events. -/
def Returns {α : Type} (session : Session α) (a : α) : Prop :=
  ∃ before after, session.run.run before = (.ok a, after)

variable {α β : Type}

variable {a b : α} {session : Session α}

theorem returns_of_outcome (done : session.outcome.1 = .ok a) : session.Returns a :=
  ⟨[], session.outcome.2, by rw [← done]; rfl⟩

theorem Returns.bind {f : α → Session β} {b : β} (returns : (session >>= f).Returns b) :
    ∃ a, session.Returns a ∧ (f a).Returns b := by
  obtain ⟨before, after, ran⟩ := returns
  rcases first : session.run.run before with ⟨outcome, middle⟩
  rw [ExceptT.run_bind, StateT.run_bind, first] at ran
  cases outcome with
  | ok a => exact ⟨a, ⟨before, middle, first⟩, ⟨middle, after, ran⟩⟩
  | error e => cases ran

theorem Returns.pure (returns : (Pure.pure a : Session α).Returns b) : a = b := by
  obtain ⟨before, after, ran⟩ := returns
  cases ran
  rfl

theorem Returns.settle {ε : Type} {wrap : ε → Failure} {outcome : Except ε α}
    (returns : (Session.settle wrap outcome).Returns a) : outcome = .ok a := by
  obtain ⟨before, after, ran⟩ := returns
  cases outcome with
  | error e => cases ran
  | ok _ =>
    cases ran
    rfl

theorem Returns.recorded {event : Event} (returns : (record event >>= fun _ => Pure.pure a).Returns b) : a = b := by
  obtain ⟨_, -, returns⟩ := returns.bind
  exact returns.pure

end Session

open Session

namespace Table

/-- Defines several names in order. -/
def defineAll (table : Table) (bindings : List (String × Binding)) : Except Error Table :=
  bindings.foldlM (fun table binding => table.define binding.1 binding.2) table

variable {table' : Table} {bindings : List (String × Binding)}

theorem define_of_returns {table : Table} {name : String} {binding : Binding}
    (returns : (table.bind name binding).Returns table') : table.define name binding = .ok table' := by
  obtain ⟨next, settled, returns⟩ := returns.bind
  have same : next = table' := by
    simp only at returns
    split at returns
    · exact returns.recorded
    · exact returns.pure
  rw [← same]
  exact settled.settle

theorem defineAll_of_returns {table : Table}
    (returns : (table.bindAll bindings).Returns table') : table.defineAll bindings = .ok table' := by
  induction bindings generalizing table with
  | nil => rw [← returns.pure]; rfl
  | cons first rest ih =>
    obtain ⟨next, stored, returns⟩ := returns.bind
    rw [defineAll, foldlM_cons, define_of_returns stored]
    exact ih returns

theorem mem_trees_defineAll {table : Table}
    (defined : table.defineAll bindings = .ok table') {t : Tree} (mem : t ∈ table'.trees) :
    t ∈ bindings.map (·.2.tree) ∨ t ∈ table.trees := by
  induction bindings generalizing table with
  | nil =>
    cases defined
    exact .inr mem
  | cons first rest ih =>
    rw [defineAll, foldlM_cons] at defined
    obtain ⟨next, stored, defined⟩ := Outcome.of_bind defined
    rw [map_cons, mem_cons]
    rcases ih defined with later | earlier
    · exact .inl (.inr later)
    · exact (mem_trees_define stored earlier).imp_left .inl

theorem literals_defineAll {table : Table}
    (defined : table.defineAll bindings = .ok table') {v : Scalar} (mem : v ∈ table'.literals) :
    v ∈ bindings.flatMap (·.2.tree.literals) ∨ v ∈ table.literals := by
  obtain ⟨t, bound, written⟩ := mem_literals.mp mem
  rcases mem_trees_defineAll defined bound with own | earlier
  · obtain ⟨binding, listed, rfl⟩ := mem_map.mp own
    exact .inl (mem_flatMap.mpr ⟨binding, listed, written⟩)
  · exact .inr (mem_literals.mpr ⟨t, earlier, written⟩)

end Table

/-- What the stages make of a program: its bindings go on top of the table, its expression is expanded, evaluated
to terms over symbolic coefficients, and turned into code. -/
structure Stages (signature : Datum) (source : Surface.Source) (style : Code.Style) (table : Table)
    (program : Surface.Program) (bound : Table) (terms : Terms Coeff) (c : Compilation) : Prop where
  signature : Signature.ofSpec signature = .ok c.signature
  read : Surface.readProgram source = .ok program
  defined : table.defineAll program.bindings = .ok bound
  expanded : Expansion.expand bound program.expression = .ok c.expanded
  evaluated : Evaluation.evaluate Evaluation.symbolic c.signature c.expanded = .ok terms
  result : c.result = .ofMultivector ⟨c.signature, terms⟩
  code : Code.generate c.result style = .ok c.code

def Surface.Program.literals (program : Surface.Program) : List Scalar :=
  program.bindings.flatMap (·.2.tree.literals) ++ program.expression.literals

variable {c : Compilation} {signature : Datum} {source : Surface.Source} {style : Code.Style} {table : Table}

theorem Stages.literals {bound : Table} {program : Surface.Program} {terms : Terms Coeff}
    (stages : Stages signature source style table program bound terms c) {v : Scalar}
    (mem : v ∈ c.expanded.literals) : v ∈ program.literals ∨ v ∈ table.literals := by
  rcases Expansion.literals_expand stages.expanded mem with own | taken
  · exact .inl (mem_append_right _ own)
  · exact (Table.literals_defineAll stages.defined taken).imp_left (mem_append_left _)

theorem compile_stages (accepted : (compile signature source style table).outcome.1 = .ok c) :
    ∃ program bound terms, Stages signature source style table program bound terms c := by
  obtain ⟨s, signed, returns⟩ := (returns_of_outcome accepted).bind
  obtain ⟨program, parsed, returns⟩ := returns.bind
  obtain ⟨bound, stored, returns⟩ := returns.bind
  obtain ⟨expanded, visited, returns⟩ := returns.bind
  obtain ⟨result, computed, returns⟩ := returns.bind
  obtain ⟨code, generated, returns⟩ := returns.bind
  have same : ⟨s, expanded, result, code⟩ = c := by
    simp only at returns
    split at returns
    · obtain ⟨_, ⟨_, _, thrown⟩, -⟩ := returns.bind
      cases thrown
    · split at returns
      · obtain ⟨_, ⟨_, _, thrown⟩, -⟩ := returns.bind
        cases thrown
      · exact returns.recorded
  subst same
  obtain ⟨_, read, parsed⟩ := parsed.bind
  obtain rfl := parsed.recorded
  obtain ⟨_, visits, visited⟩ := visited.bind
  obtain rfl := visited.recorded
  obtain ⟨A, evaluates, computed⟩ := computed.bind
  obtain rfl := computed.recorded
  obtain ⟨terms, evaluated, ⟨⟩⟩ := Outcome.of_bind evaluates.settle
  exact ⟨_, bound, terms, signed.settle, read.settle, Table.defineAll_of_returns stored, visits.settle, evaluated, rfl,
    generated.settle⟩

end Bladewright
