import Bladewright.Proofs.Compilation.Stages
import Bladewright.Proofs.Expansion.Agreement
import Bladewright.Proofs.Surface.Scopes

/-!
Where the bindings of a table come from. A table is built from a specification and then changed, one call after the
other; a call that is rejected leaves it as it was (`Table.after`).
-/
namespace Bladewright

open List Session Expansion

/-- Bindings that are read from source: a single expression, a single function, or a statement of a program. -/
inductive Binding.IsRead : Binding → Prop
  | expression {source : Surface.Source} {rhs : Tree} : Surface.readExpression source = .ok rhs →
    IsRead (.reference rhs)
  | function {source : Surface.Source} {f : Callable} : Surface.readFunction source = .ok f → IsRead (.function f)
  | statement {source : Surface.Source} {program : Surface.Program} {name : String} {binding : Binding} :
    Surface.readProgram source = .ok program → (name, binding) ∈ program.bindings → IsRead binding

variable {binding : Binding}

theorem Binding.IsRead.exists_isScoped (read : binding.IsRead) : ∃ params Listed, binding.IsScoped params Listed := by
  cases read with
  | expression read =>
    obtain ⟨e, own⟩ := Surface.isScoped_readExpression read
    exact ⟨[], _, own⟩
  | function read =>
    obtain ⟨s, -, own⟩ := Surface.isScoped_readFunction read
    exact ⟨_, _, own⟩
  | statement read mem =>
    obtain ⟨statements, e, -, each, -⟩ := Surface.of_readProgram read
    obtain ⟨s, -, found⟩ := Outcome.mem_of_mapM each mem
    exact ⟨_, _, Surface.isScoped_readBinding s.isDownward_holds Host.Stmt.holds_of_mem found⟩

theorem Binding.IsRead.isSurface (read : binding.IsRead) : binding.tree.IsSurface := by
  obtain ⟨params, Listed, own⟩ := read.exists_isScoped
  exact own.isSurface

/-! ### What is handed in -/

def ReferenceSpec.trees : ReferenceSpec → List Tree
  | .tree t => [t]
  | .text _ | .other => []

def FunctionSpec.trees : FunctionSpec → List Tree
  | .callable f => [f.body]
  | .text _ | .other _ => []

def TableSpec.trees (spec : TableSpec) : List Tree :=
  spec.references.flatMap (·.2.trees) ++ spec.functions.flatMap (·.2.trees)

/-- A binding of a tree that was handed in, or that is read from source. -/
def Binding.IsGiven (handed : List Tree) (binding : Binding) : Prop := binding.tree ∈ handed ∨ binding.IsRead

theorem Binding.IsGiven.mono {handed more : List Tree} (subset : handed ⊆ more)
    (given : binding.IsGiven handed) : binding.IsGiven more :=
  given.imp_left fun mem => subset mem

theorem ReferenceSpec.isGiven_of_read {spec : ReferenceSpec} {rhs : Tree} (returns : spec.read.Returns rhs) :
    (Binding.reference rhs).IsGiven spec.trees := by
  cases spec with
  | text source =>
    rw [read] at returns
    exact .inr (.expression returns.settle)
  | tree t =>
    obtain rfl := returns.pure
    exact .inl (by simp [Binding.tree, trees])
  | other =>
    obtain ⟨_, _, ran⟩ := returns
    cases ran

theorem FunctionSpec.isGiven_of_read {spec : FunctionSpec} {f : Callable} (returns : spec.read.Returns f) :
    (Binding.function f).IsGiven spec.trees := by
  cases spec with
  | text source =>
    rw [read] at returns
    exact .inr (.function returns.settle)
  | callable g =>
    obtain rfl := returns.pure
    exact .inl (by simp [Binding.tree, trees])
  | other value =>
    obtain ⟨_, _, ran⟩ := returns
    cases ran

namespace Table

variable {table table' : Table}

theorem defineAll_cons {first : String × Binding} {rest : List (String × Binding)} :
    table.defineAll (first :: rest) = table.define first.1 first.2 >>= fun next => next.defineAll rest := by
  rw [defineAll, foldlM_cons]
  rfl

theorem defineAll_append (first rest : List (String × Binding)) :
    table.defineAll (first ++ rest) = table.defineAll first >>= fun next => next.defineAll rest := by
  rw [defineAll, foldlM_append]
  rfl

variable {name : String} {definitions : List (String × Binding)} {spec : TableSpec} {α : Type}
  {entries : List (String × α)}

theorem defineAll_singleton (defined : table.define name binding = .ok table') :
    table.defineAll [(name, binding)] = .ok table' := by
  rw [defineAll_cons, defined]
  rfl

theorem defineAll_keeps {P : Table → Prop} (step : ∀ definition ∈ definitions, ∀ before after : Table, P before →
      before.define definition.1 definition.2 = .ok after → P after)
    (start : P table) (defined : table.defineAll definitions = .ok table') : P table' := by
  induction definitions generalizing table with
  | nil =>
    cases defined
    exact start
  | cons first rest ih =>
    rw [forall_mem_cons] at step
    rw [defineAll_cons] at defined
    obtain ⟨next, stored, defined⟩ := Outcome.of_bind defined
    exact ih step.2 (step.1 table next start stored) defined

/-! ### Tables that are built -/

/-- One definition for each entry of a specification, with its name. -/
def Follow {α : Type} (trees : α → List Tree) (entries : List (String × α)) (definitions : List (String × Binding)) :
    Prop :=
  List.Forall₂ (fun entry definition => definition.1 = entry.1 ∧ definition.2.IsGiven (trees entry.2)) entries
    definitions

theorem definitions_of_bindReferences {specs : List (String × ReferenceSpec)}
    (returns : (table.bindReferences specs).Returns table') :
    ∃ definitions, Follow ReferenceSpec.trees specs definitions ∧ table.defineAll definitions = .ok table' := by
  induction specs generalizing table with
  | nil => exact ⟨[], .nil, by rw [← returns.pure]; rfl⟩
  | cons entry rest ih =>
    obtain ⟨name, spec⟩ := entry
    obtain ⟨rhs, read, returns⟩ := returns.bind
    obtain ⟨next, stored, returns⟩ := returns.bind
    obtain ⟨definitions, follow, defined⟩ := ih returns
    refine ⟨(name, .reference rhs) :: definitions, .cons ⟨rfl, ReferenceSpec.isGiven_of_read read⟩ follow, ?_⟩
    rw [defineAll_cons, define_of_returns stored]
    exact defined

theorem definitions_of_bindFunctions {specs : List (String × FunctionSpec)}
    (returns : (table.bindFunctions specs).Returns table') :
    ∃ definitions, Follow FunctionSpec.trees specs definitions ∧ (∀ d ∈ definitions, ∃ f, d.2 = .function f) ∧
      table.defineAll definitions = .ok table' := by
  induction specs generalizing table with
  | nil => exact ⟨[], .nil, by simp, by rw [← returns.pure]; rfl⟩
  | cons entry rest ih =>
    obtain ⟨name, spec⟩ := entry
    obtain ⟨f, read, returns⟩ := returns.bind
    obtain ⟨next, stored, returns⟩ := returns.bind
    obtain ⟨definitions, follow, functions, defined⟩ := ih returns
    refine ⟨(name, .function f) :: definitions, .cons ⟨rfl, FunctionSpec.isGiven_of_read read⟩ follow, ?_, ?_⟩
    · rw [forall_mem_cons]
      exact ⟨⟨f, rfl⟩, functions⟩
    · rw [defineAll_cons, define_of_returns stored]
      exact defined

theorem definitions_of_build (built : spec.build.outcome.1 = .ok table) :
    ∃ references functions, Follow ReferenceSpec.trees spec.references references ∧
      Follow FunctionSpec.trees spec.functions functions ∧ (∀ d ∈ functions, ∃ f, d.2 = .function f) ∧
      (initial spec.builtins spec.warns).defineAll (references ++ functions) = .ok table := by
  obtain ⟨middle, first, second⟩ := (returns_of_outcome built).bind
  obtain ⟨references, follow, defined⟩ := definitions_of_bindReferences first
  obtain ⟨functions, follow', kinds, defined'⟩ := definitions_of_bindFunctions second
  refine ⟨references, functions, follow, follow', kinds, ?_⟩
  rw [defineAll_append, defined]
  exact defined'

theorem Follow.isGiven {trees : α → List Tree} (follow : Follow trees entries definitions) :
    ∀ d ∈ definitions, d.2.IsGiven (entries.flatMap (trees ·.2)) := by
  induction follow with
  | nil => simp
  | @cons entry definition entries definitions first _ ih =>
    rw [forall_mem_cons, flatMap_cons]
    refine ⟨first.2.mono (subset_append_left _ _), fun d mem => ?_⟩
    exact (ih d mem).mono (subset_append_right _ _)

theorem Follow.exists_of_mem {trees : α → List Tree} (follow : Follow trees entries definitions) {entry : String × α}
    (mem : entry ∈ entries) : ∃ d ∈ definitions, d.1 = entry.1 := by
  induction follow with
  | nil => cases mem
  | cons first _ ih =>
    rcases mem_cons.mp mem with rfl | mem
    · exact ⟨_, mem_cons_self, first.1⟩
    · obtain ⟨d, stored, same⟩ := ih mem
      exact ⟨d, mem_cons_of_mem _ stored, same⟩

/-! ### Tables that are changed -/

/-- A call that changes a table, or makes a changed copy of it. -/
inductive Change where
  | reference (name : String) (rhs : ReferenceSpec)
  | function (name : String) (f : Callable)
  | define (name : String) (binding : Binding)
  | extended (bindings : List (String × Binding))

namespace Change

/-- The table that a change leads to, unless it is rejected. -/
def attempt (table : Table) : Change → Session Table
  | reference name spec => do table.bind name (.reference (← spec.read))
  | function name f => table.bind name (.function f)
  | define name binding => table.bind name binding
  | extended bindings => table.bindAll bindings

def trees : Change → List Tree
  | reference _ spec => spec.trees
  | function _ f => [f.body]
  | define _ binding => [binding.tree]
  | extended bindings => bindings.map (·.2.tree)

def keys : Change → List Key
  | reference name _ => [⟨.reference, name⟩]
  | function name _ => [⟨.function, name⟩]
  | define name binding => [binding.key name]
  | extended bindings => bindings.map fun entry => entry.2.key entry.1

theorem definitions_of_attempt {change : Change} (accepted : (change.attempt table).outcome.1 = .ok table') :
    ∃ definitions : List (String × Binding), (∀ d ∈ definitions, d.2.IsGiven change.trees) ∧
      definitions.map (fun d => d.2.key d.1) = change.keys ∧ table.defineAll definitions = .ok table' := by
  have returns := returns_of_outcome accepted
  cases change with
  | reference name spec =>
    obtain ⟨rhs, read, returns⟩ := returns.bind
    refine ⟨[(name, .reference rhs)], ?_, rfl, defineAll_singleton (define_of_returns returns)⟩
    simpa [trees] using ReferenceSpec.isGiven_of_read read
  | function name f =>
    refine ⟨[(name, .function f)], ?_, rfl, defineAll_singleton (define_of_returns returns)⟩
    simp [trees, Binding.IsGiven, Binding.tree]
  | define name binding =>
    refine ⟨[(name, binding)], ?_, rfl, defineAll_singleton (define_of_returns returns)⟩
    simp [trees, Binding.IsGiven]
  | extended bindings =>
    refine ⟨bindings, fun d mem => ?_, rfl, defineAll_of_returns returns⟩
    exact .inl (mem_map_of_mem (f := fun entry : String × Binding => entry.2.tree) mem)

end Change

/-- A table after a change, and as it was if the change is rejected. -/
def after (table : Table) (change : Change) : Table :=
  match (change.attempt table).outcome.1 with
  | .ok table' => table'
  | .error _ => table

variable {change : Change}

theorem after_of_error {e : Failure} (rejected : (change.attempt table).outcome.1 = .error e) :
    table.after change = table := by
  simp only [after, rejected]

theorem definitions_of_after (table : Table) (change : Change) :
    ∃ definitions : List (String × Binding), (∀ d ∈ definitions, d.2.IsGiven change.trees) ∧
      (∀ d ∈ definitions, d.2.key d.1 ∈ change.keys) ∧ table.defineAll definitions = .ok (table.after change) := by
  cases attempted : (change.attempt table).outcome.1 with
  | error e => exact ⟨[], by simp, by simp, by rw [after_of_error attempted]; rfl⟩
  | ok table' =>
    obtain ⟨definitions, given, keys, defined⟩ := Change.definitions_of_attempt attempted
    refine ⟨definitions, given, fun d mem => ?_, by simp only [after, attempted, defined]⟩
    rw [← keys]
    exact mem_map_of_mem (f := fun d : String × Binding => d.2.key d.1) mem

/-- Whatever calls are made, accepted or rejected, a table is what accepted definitions make of the initial one, each of
a tree that was handed in or read from source. -/
theorem definitions_of_reached {start : Table} (built : spec.build.outcome.1 = .ok start)
    (changes : List Change) : ∃ definitions : List (String × Binding),
      (∀ d ∈ definitions, d.2.IsGiven (spec.trees ++ changes.flatMap Change.trees)) ∧
      (initial spec.builtins spec.warns).defineAll definitions = .ok (changes.foldl after start) := by
  -- from the end, as the last change is the one that acts on the table reached so far
  induction changes using List.reverseRecOn with
  | nil =>
    obtain ⟨references, functions, follow, follow', -, defined⟩ := definitions_of_build built
    refine ⟨references ++ functions, ?_, defined⟩
    rw [forall_mem_append]
    refine ⟨fun d mem => (follow.isGiven d mem).mono ?_, fun d mem => (follow'.isGiven d mem).mono ?_⟩
    · simp [TableSpec.trees]
    · simp [TableSpec.trees]
  | append_singleton changes change ih =>
    obtain ⟨definitions, given, defined⟩ := ih
    obtain ⟨further, given', -, defined'⟩ := definitions_of_after (changes.foldl after start) change
    refine ⟨definitions ++ further, ?_, ?_⟩
    · rw [forall_mem_append]
      refine ⟨fun d mem => (given d mem).mono ?_, fun d mem => (given' d mem).mono ?_⟩
      · simp [flatMap_append, ← append_assoc]
      · simp
    · rw [defineAll_append, defined, foldl_concat]
      exact defined'

/-! ### What a definition leaves alone -/

theorem lookup_assign (entries : List (String × α)) (name other : String) (value : α) :
    (assign entries name value).lookup other = if other = name then some value else entries.lookup other := by
  induction entries with
  | nil =>
    by_cases same : other = name
    · simp [assign, same]
    · simp [assign, same, lookup_cons, beq_eq_false_iff_ne.mpr same]
  | cons first rest ih =>
    obtain ⟨n, v⟩ := first
    unfold assign
    by_cases found : n = name
    · rw [if_pos found]
      subst found
      by_cases same : other = n
      · simp [same]
      · simp [same, lookup_cons, beq_eq_false_iff_ne.mpr same]
    · rw [if_neg found, lookup_cons, lookup_cons, ih]
      by_cases same : other = n
      · simp [same, found]
      · simp [beq_eq_false_iff_ne.mpr same]

/-- What a definition checks: a reference has no placeholder from zero on, and a function has none from the number of
its arguments on and does not call its own name. -/
def Passes (name : String) : Binding → Prop
  | .reference rhs => rhs.maxArgument < 0
  | .function f => 0 ≤ f.arity ∧ f.body.maxArgument < f.arity ∧ f.body.callsTo name = false

theorem of_define (defined : table.define name binding = .ok table') :
    Passes name binding ∧ table' = table.store name binding := by
  cases binding with
  | reference rhs =>
    simp only [define, defineReference] at defined
    split at defined
    · cases defined
    · rename_i low
      cases defined
      exact ⟨Int.not_le.mp low, rfl⟩
  | function f =>
    simp only [define, defineFunction] at defined
    split at defined
    · cases defined
    rename_i nonneg
    split at defined
    · cases defined
    rename_i low
    split at defined
    · cases defined
    · rename_i own
      cases defined
      exact ⟨⟨Int.not_lt.mp nonneg, Int.not_le.mp low, Bool.not_eq_true _ ▸ own⟩, rfl⟩

theorem binding?_store (table : Table) (name : String) (binding : Binding) (key : Key) :
    binding? (table.store name binding) key = if key = binding.key name then some binding else binding? table key := by
  obtain ⟨kind, other⟩ := key
  cases binding with
  | reference rhs =>
    cases kind with
    | reference =>
      by_cases same : other = name
      · simp [binding?, store, reference?, lookup_assign, Binding.key, same]
      · simp [binding?, store, reference?, lookup_assign, Binding.key, same]
    | function => simp [binding?, store, function?, Binding.key]
  | function f =>
    cases kind with
    | reference => simp [binding?, store, storeFunction, reference?, Binding.key]
    | function =>
      by_cases same : other = name
      · simp [binding?, store, storeFunction, function?, lookup_assign, Binding.key, same]
      · simp [binding?, store, storeFunction, function?, lookup_assign, Binding.key, same]

theorem binding?_after {key : Key} (other : key ∉ change.keys) :
    binding? (table.after change) key = binding? table key := by
  obtain ⟨definitions, -, keys, defined⟩ := definitions_of_after table change
  refine defineAll_keeps (P := fun t => binding? t key = binding? table key) ?_ rfl defined
  intro definition mem before after kept stored
  have differ : key ≠ definition.2.key definition.1 := fun same => other (same ▸ keys definition mem)
  rw [(of_define stored).2, binding?_store, if_neg differ, kept]

end Table

end Bladewright
