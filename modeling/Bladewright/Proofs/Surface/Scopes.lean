import Bladewright.Proofs.Surface.Trees

/-!
Bindings that are read can be stored. A scoped tree has placeholders for the parameters of its function only, and none
outside of functions (`Tree.IsScoped.of_mem_arguments`).
-/
namespace Bladewright

open List

namespace Tree

theorem mem_arguments {t : Tree} {i : Int} : i ∈ t.arguments ↔ argument i ∈ t.walk := by
  rw [arguments, mem_filterMap]
  constructor
  · rintro ⟨node, below, found⟩
    cases node with
    | argument j =>
      cases found
      exact below
    | _ => cases found
  · exact fun below => ⟨argument i, below, rfl⟩

theorem maxArgument_lt {t : Tree} {n : Int} (nonneg : 0 ≤ n) (bound : ∀ i ∈ t.arguments, i < n) :
    t.maxArgument < n := by
  have fold (is : List Int) : ∀ i < n, (∀ j ∈ is, j < n) → is.foldl max i < n := by
    induction is with
    | nil => exact fun i less _ => less
    | cons j is ih =>
      intro i less each
      rw [forall_mem_cons] at each
      exact ih (max i j) (Int.max_lt.mpr ⟨less, each.1⟩) each.2
  unfold maxArgument
  split
  · omega
  · rename_i i is listed
    rw [listed, forall_mem_cons] at bound
    exact fold is i bound.1 bound.2

namespace IsScoped

variable {params : List String} {Listed : Host.Expr → Prop} {t : Tree}

theorem of_mem_arguments (fits : t.IsScoped params Listed) : ∀ i ∈ t.arguments, 0 ≤ i ∧ i < params.length :=
  fun _ mem => fits _ (mem_arguments.mp mem)

theorem arguments_eq_nil (fits : t.IsScoped [] Listed) : t.arguments = [] := by
  refine eq_nil_iff_forall_not_mem.mpr fun i mem => ?_
  obtain ⟨lower, upper⟩ := fits.of_mem_arguments i mem
  exact absurd upper (by simpa using lower)

end IsScoped

end Tree

def Binding.callsItself (name : String) : Binding → Bool
  | reference _ => false
  | function f => f.body.callsTo name

namespace Table

/-- Stores a binding without any check. -/
def store (table : Table) (name : String) : Binding → Table
  | .reference rhs => { table with references := assign table.references name rhs }
  | .function f => table.storeFunction name f

theorem define_of_isScoped {params : List String} {Listed : Host.Expr → Prop} {binding : Binding}
    (fits : binding.IsScoped params Listed) (table : Table) (name : String) :
    table.define name binding =
      if binding.callsItself name then .error (.selfCall name) else .ok (table.store name binding) := by
  cases binding with
  | reference rhs =>
    have closed : rhs.arguments = [] := Tree.IsScoped.arguments_eq_nil fits
    have low : ¬0 ≤ rhs.maxArgument := by simp [Tree.maxArgument, closed]
    rw [define, defineReference, if_neg low]
    rfl
  | function f =>
    obtain ⟨arity, body⟩ := fits
    have nonneg : ¬f.arity < 0 := by omega
    have low : f.body.maxArgument < f.arity := by
      refine Tree.maxArgument_lt (by omega) fun i mem => ?_
      rw [arity]
      exact (body.of_mem_arguments i mem).2
    rw [define, defineFunction, if_neg nonneg, if_neg (by omega)]
    by_cases own : f.body.callsTo name = true
    · simp [Binding.callsItself, own]
      rfl
    · simp [Binding.callsItself, own]
      rfl

end Table

namespace Surface

open Host

/-- Reading yields scoped bindings. A function that is read has as many arguments as the statement has parameters, and
its tree is scoped, with host expressions that stand in that statement. Neither an expression that is read nor the
references and the final expression of a program have placeholders. So a table stores whatever is read, except for a
function that calls itself. -/
theorem read_bindings_scoped (source : Source) :
    (∀ f, readFunction source = .ok f →
      (∃ s, source.statements = .ok [s] ∧ f.arity = (parameters s).length ∧
        f.body.IsScoped (parameters s) s.Holds) ∧
      ∀ (table : Table) (name : String), table.defineFunction name f =
        if f.body.callsTo name then .error (.selfCall name) else .ok (table.store name (.function f))) ∧
    (∀ rhs, readExpression source = .ok rhs → rhs.arguments = [] ∧
      ∀ (table : Table) (name : String),
        table.defineReference name rhs = .ok (table.store name (.reference rhs))) ∧
    ∀ program, readProgram source = .ok program →
      program.expression.arguments = [] ∧
      (∀ name rhs, (name, .reference rhs) ∈ program.bindings → rhs.arguments = []) ∧
      (∃ statements last, source.statements = .ok (statements ++ [last]) ∧
        List.Forall₂ (fun s entry => entry.2.IsScoped (parameters s) s.Holds) statements program.bindings) ∧
      ∀ entry ∈ program.bindings, ∀ table : Table, table.define entry.1 entry.2 =
        if entry.2.callsItself entry.1 then .error (.selfCall entry.1) else .ok (table.store entry.1 entry.2) := by
  refine ⟨fun f done => ?_, fun rhs done => ?_, fun program done => ?_⟩
  · obtain ⟨s, found, own⟩ := isScoped_readFunction done
    exact ⟨⟨s, found, own⟩, Table.define_of_isScoped own⟩
  · obtain ⟨e, own⟩ := isScoped_readExpression done
    have bound : (Binding.reference rhs).IsScoped [] (Expr.IsPart · e) := own
    exact ⟨own.arguments_eq_nil, Table.define_of_isScoped bound⟩
  · obtain ⟨statements, e, found, read, converted⟩ := of_readProgram done
    have each (s : Stmt) (entry : String × Binding) (read : readBinding s = .ok entry) :
        entry.2.IsScoped (parameters s) s.Holds :=
      isScoped_readBinding s.isDownward_holds Stmt.holds_of_mem read
    refine ⟨(isScoped_convert_empty converted).arguments_eq_nil, fun name rhs mem => ?_,
      ⟨statements, _, found, (Outcome.of_mapM read).imp each⟩, fun entry mem => ?_⟩
    · obtain ⟨s, -, read⟩ := Outcome.mem_of_mapM read mem
      exact Tree.IsScoped.arguments_eq_nil (each s _ read)
    · obtain ⟨s, -, read⟩ := Outcome.mem_of_mapM read mem
      exact fun table => Table.define_of_isScoped (each s entry read) table entry.1

/-- A function with a local that is assigned anew, and host expressions in its locals. -/
def layered : Source :=
  .text "def f(a, b):\n c = a * p.q\n c: Vector = b + c\n return c"

theorem read_bindings_scoped_layered :
    ∃ f s, readFunction layered = .ok f ∧ layered.statements = .ok [s] ∧ parameters s = ["a", "b"] ∧ f.arity = 2 ∧
      f.body.arguments = [1, 0] ∧ f.body.IsScoped ["a", "b"] s.Holds := by
  have read : (readFunction layered).toOption.map (·.body.arguments) = some [1, 0] := by decide +kernel
  have names : layered.statements.toOption.map (·.map parameters) = some [["a", "b"]] := by decide +kernel
  obtain ⟨f, done, arguments⟩ := Option.map_eq_some_iff.mp read
  obtain ⟨⟨s, found, arity, own⟩, -⟩ := (read_bindings_scoped layered).1 f (Outcome.of_toOption done)
  rw [found] at names
  have declared : parameters s = ["a", "b"] := by simpa [Except.toOption] using names
  rw [declared] at arity own
  exact ⟨f, s, Outcome.of_toOption done, found, declared, arity, arguments, own⟩

end Surface

end Bladewright
