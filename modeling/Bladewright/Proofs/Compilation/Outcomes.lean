import Bladewright.Execution
import Bladewright.Proofs.Compilation.Stages

/-!
Outcomes of sessions. What comes of a session does not depend on what was recorded before (`Session.Settles`), so the
outcome of a compilation, of a function and of a kernel is that of their stages without the record (`settles_compile`,
`settles_compileFunction`, `Kernel.settles_ofJob`).
-/
namespace Bladewright

open List Host

namespace Session

/-- A session has an outcome, from any record of events. -/
def Settles {α : Type} (session : Session α) (outcome : Except Failure α) : Prop :=
  ∀ before, ∃ after, session.run.run before = (outcome, after)

variable {α β : Type} {session : Session α} {ended : Except Failure α}

theorem Settles.outcome (settles : session.Settles ended) : session.outcome.1 = ended := by
  obtain ⟨after, ran⟩ := settles []
  exact congrArg Prod.fst ran

theorem settles_pure (a : α) : (pure a : Session α).Settles (pure a) := fun before => ⟨before, rfl⟩

theorem settles_throw (failure : Failure) : (throw failure : Session α).Settles (throw failure) :=
  fun before => ⟨before, rfl⟩

theorem settles_settle {ε : Type} (wrap : ε → Failure) (outcome : Except ε α) :
    (settle wrap outcome).Settles (outcome.mapError wrap) := by
  cases outcome with
  | error e => exact settles_throw (wrap e)
  | ok a => exact settles_pure a

theorem Settles.bind {f : α → Session β} {g : α → Except Failure β} (first : session.Settles ended)
    (next : ∀ a, (f a).Settles (g a)) : (session >>= f).Settles (ended >>= g) := by
  intro before
  obtain ⟨middle, ran⟩ := first before
  rw [ExceptT.run_bind, StateT.run_bind, ran]
  cases ended with
  | error e => exact ⟨middle, rfl⟩
  | ok a => exact next a middle

theorem settles_recorded (event : Event) (settles : session.Settles ended) :
    (record event >>= fun _ => session).Settles ended :=
  fun before => settles (before ++ [event])

end Session

open Session

theorem Table.settles_bind (table : Table) (name : String) (binding : Binding) :
    (table.bind name binding).Settles ((table.define name binding).mapError .table) := by
  rw [← bind_pure ((table.define name binding).mapError Failure.table)]
  refine (settles_settle _ _).bind fun table => ?_
  split
  · exact settles_recorded _ (settles_pure table)
  · exact settles_pure table

theorem Table.settles_bindAll (table : Table) (bindings : List (String × Binding)) :
    (table.bindAll bindings).Settles ((table.defineAll bindings).mapError .table) := by
  induction bindings generalizing table with
  | nil => exact settles_pure table
  | cons binding rest ih =>
    have defined : (table.defineAll (binding :: rest)).mapError Failure.table =
        (table.define binding.1 binding.2).mapError .table >>= fun table => (table.defineAll rest).mapError .table := by
      rw [defineAll, foldlM_cons]
      cases table.define binding.1 binding.2 <;> rfl
    rw [defined]
    exact (table.settles_bind _ _).bind ih

/-- What the stages before the code make of a program. -/
def analysis (signature : Datum) (source : Surface.Source) (table : Table) :
    Except Failure (Signature × Tree × Result) := do
  let s ← (Signature.ofSpec signature).mapError .signature
  let program ← (Surface.readProgram source).mapError .surface
  let bound ← (table.defineAll program.bindings).mapError .table
  let expanded ← (Expansion.expand bound program.expression).mapError .expansion
  let A ← (Evaluation.evaluateMultivector s expanded).mapError .evaluation
  return (s, expanded, .ofMultivector A)

/-- What comes of an attempt to write code. -/
def written {α : Type} (code : Expr) (a : α) : Except Failure α :=
  if code.isShallow then if code.isWritable then return a else throw (.code .unwritable) else throw (.code .tooDeep)

theorem map_written {α β : Type} (code : Expr) (a : α) (f : α → β) : (written code a).map f = written code (f a) := by
  unfold written
  repeat' split
  all_goals rfl

/-- The code of a result, if it can be written. -/
def writtenCode (result : Result) (style : Code.Style) : Except Failure Expr := do
  let code ← (Code.generate result style).mapError .code
  written code code

/-- What a compilation makes of a program. -/
def compiled (signature : Datum) (source : Surface.Source) (style : Code.Style) (table : Table) :
    Except Failure Compilation := do
  let (s, expanded, result) ← analysis signature source table
  return ⟨s, expanded, result, ← writtenCode result style⟩

theorem settles_compile (signature : Datum) (source : Surface.Source) (style : Code.Style) (table : Table) :
    (compile signature source style table).Settles (compiled signature source style table) := by
  simp only [compile, parseProgram, expandTree, evaluateTree, compiled, analysis, bind_assoc, pure_bind]
  refine (settles_settle _ _).bind fun s => (settles_settle _ _).bind fun program => settles_recorded _ ?_
  refine (Table.settles_bindAll _ _).bind fun bound => (settles_settle _ _).bind fun expanded => settles_recorded _ ?_
  refine (settles_settle _ _).bind fun A => settles_recorded _ ?_
  rw [writtenCode, bind_assoc]
  refine (settles_settle _ _).bind fun code => ?_
  unfold written
  cases code.isShallow with
  | false => exact settles_throw _
  | true =>
    cases code.isWritable with
    | false => exact settles_throw _
    | true => exact settles_recorded _ (settles_pure _)

/-- What the compilation of a function makes of a program. -/
def compiledFunction (signature : Datum) (source : Surface.Source) (args : List String) (name : String)
    (style : Code.Style) (table : Table) : Except Failure Stmt := do
  let c ← compiled signature source style table
  let function ← (Code.generateFunction c.result args name style).mapError .code
  if function.isWritable then return function else throw (.code .unwritable)

theorem settles_compileFunction (signature : Datum) (source : Surface.Source) (args : List String) (name : String)
    (style : Code.Style) (table : Table) :
    (compileFunction signature source args name style table).Settles
      (compiledFunction signature source args name style table) := by
  refine (settles_compile _ _ _ _).bind fun c => (settles_settle _ _).bind fun function => ?_
  cases function.isWritable with
  | false => exact settles_throw _
  | true => exact settles_recorded _ (settles_pure _)

theorem Kernel.settles_ofJob (job : Job) (args : List String) (name : String) (table : Table) :
    (ofJob job args name table).Settles (do
      let definition ← compiledFunction job.signature job.source args name job.style table
      (checkNames name args).mapError .host
      match definition.toFunction? with
      | none => throw (.host .invalidCode)
      | some function =>
        return ⟨{ job.environment with globals := (name, function) :: job.environment.globals }, function⟩) := by
  refine (settles_compileFunction _ _ _ _ _ _).bind fun definition => (settles_settle _ _).bind fun _ => ?_
  cases definition.toFunction? with
  | none => exact settles_throw _
  | some function => exact settles_pure _

end Bladewright
