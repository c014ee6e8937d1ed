import Bladewright.Proofs.Compilation.Counted
import Bladewright.Proofs.Table.Definitions

/-!
Primitive functions that are defined anew. Of all built-in functions only the primitive one of an operation has this
operation in its body (`confines_initial`), and reading yields no operations.
-/
namespace Bladewright

open List Expansion

namespace Tree

def isOperation (op : Op) : Tree → Bool
  | operation other _ => decide (other = op)
  | _ => false

def Avoids (op : Op) (t : Tree) : Prop := t.Every (isOperation op · = false)

variable {t : Tree}

theorem IsSurface.avoids (surface : t.IsSurface) (op : Op) : t.Avoids op := by
  intro node below
  have known := surface node below
  cases node with
  | operation other args => cases known
  | _ => rfl

theorem Avoids.notMem {op : Op} (avoids : t.Avoids op) (args : List Tree) : operation op args ∉ t.walk := by
  intro below
  have other := avoids _ below
  simp [isOperation] at other

end Tree

def Binding.Avoids (op : Op) (binding : Binding) : Prop := binding.tree.Avoids op

variable {binding : Binding}

theorem Binding.IsRead.avoids (read : binding.IsRead) (op : Op) : binding.Avoids op :=
  read.isSurface.avoids op

namespace Table

/-! ### Names of entries -/

variable {α : Type} {entries : List (String × α)} {name : String} {f : Callable}

theorem map_fst_assign (entries : List (String × α)) (name : String) (value : α) :
    (assign entries name value).map (·.1) =
      if name ∈ entries.map (·.1) then entries.map (·.1) else entries.map (·.1) ++ [name] := by
  induction entries with
  | nil => rfl
  | cons first rest ih =>
    unfold assign
    by_cases found : first.1 = name
    · simp [found]
    · rw [if_neg found, map_cons, ih]
      by_cases later : name ∈ rest.map (·.1)
      · simp [later]
      · have missing : name ∉ (first :: rest).map (·.1) := by
          rw [map_cons, mem_cons, not_or]
          exact ⟨Ne.symm found, later⟩
        rw [if_neg later, if_neg missing]
        rfl

theorem nodup_assign (distinct : (entries.map (·.1)).Nodup) (name : String)
    (value : α) : ((assign entries name value).map (·.1)).Nodup := by
  rw [map_fst_assign]
  split
  · exact distinct
  · rename_i missing
    exact List.Nodup.append distinct (nodup_singleton name) (by simpa using missing)

theorem mem_assign_of_nodup (distinct : (entries.map (·.1)).Nodup)
    {value : α} {entry : String × α} (mem : entry ∈ assign entries name value) :
    entry = (name, value) ∨ entry ∈ entries ∧ entry.1 ≠ name := by
  induction entries with
  | nil => exact .inl (mem_singleton.mp mem)
  | cons first rest ih =>
    rw [map_cons, nodup_cons] at distinct
    unfold assign at mem
    by_cases found : first.1 = name
    · rw [if_pos found] at mem
      rcases mem_cons.mp mem with rfl | mem
      · exact .inl (by rw [found])
      · refine .inr ⟨mem_cons_of_mem _ mem, fun same => distinct.1 ?_⟩
        rw [found, ← same]
        exact mem_map_of_mem mem
    · rw [if_neg found] at mem
      rcases mem_cons.mp mem with rfl | mem
      · exact .inr ⟨mem_cons_self, found⟩
      · exact (ih distinct.2 mem).imp_right fun other => ⟨mem_cons_of_mem _ other.1, other.2⟩

/-! ### Where an operation can be -/

/-- Only the function named after an operation can have it in its body. -/
structure Confines (op : Op) (table : Table) : Prop where
  distinct : (table.functions.map (·.1)).Nodup
  references : ∀ entry ∈ table.references, entry.2.Avoids op
  functions : ∀ entry ∈ table.functions, entry.1 = op.name ∨ entry.2.body.Avoids op

def Avoids (op : Op) (table : Table) : Prop := ∀ t ∈ table.trees, t.Avoids op

theorem avoids_primitive {op other : Op} (differ : other ≠ op) : (Builtin.primitive other).body.Avoids op := by
  refine Tree.every_operation.mpr ⟨by simpa [Tree.isOperation] using differ, ?_⟩
  rw [forall_mem_map]
  exact fun i _ => (Tree.every_of_leaf rfl).mpr rfl

theorem isSurface_derived : ∀ entry ∈ Builtin.derived, entry.2.body.IsSurface := by
  show ∀ entry ∈ Builtin.derived, ∀ node ∈ entry.2.body.walk, node.isSurfaceNode = true
  decide

theorem confines_initial (op : Op) (warns : Bool) : (initial true warns).Confines op where
  distinct := by
    show (Builtin.functions.map (·.1)).Nodup
    decide +kernel
  references := by
    show ∀ entry ∈ Builtin.references, entry.2.Avoids op
    exact forall_mem_singleton.mpr (Tree.every_call.mpr ⟨rfl, by simp⟩)
  functions := by
    show ∀ entry ∈ Builtin.functions, entry.1 = op.name ∨ entry.2.body.Avoids op
    rw [Builtin.functions, forall_mem_append, forall_mem_map]
    refine ⟨fun other _ => ?_, fun entry mem => .inr ((isSurface_derived entry mem).avoids op)⟩
    by_cases same : other = op
    · exact .inl (by rw [same])
    · exact .inr (avoids_primitive same)

variable {op : Op} {table table' : Table}

theorem Confines.define (confines : table.Confines op) (own : binding.Avoids op)
    (defined : table.define name binding = .ok table') : table'.Confines op := by
  obtain ⟨-, rfl⟩ := of_define defined
  cases binding with
  | reference rhs =>
    refine ⟨confines.distinct, fun entry stored => ?_, confines.functions⟩
    rcases mem_assign stored with rfl | stored
    · exact own
    · exact confines.references entry stored
  | function f =>
    refine ⟨nodup_assign confines.distinct name f, confines.references, fun entry stored => ?_⟩
    rcases mem_assign stored with rfl | stored
    · exact .inr own
    · exact confines.functions entry stored

theorem Avoids.define (avoids : table.Avoids op) (own : binding.Avoids op)
    (defined : table.define name binding = .ok table') : table'.Avoids op := by
  intro t mem
  rcases mem_trees_define defined mem with rfl | mem
  · exact own
  · exact avoids t mem

theorem Confines.override (confines : table.Confines op) (own : f.body.Avoids op)
    (defined : table.define op.name (.function f) = .ok table') : table'.Avoids op := by
  obtain ⟨-, rfl⟩ := of_define defined
  intro t mem
  rcases mem_append.mp mem with mem | mem
  · obtain ⟨entry, stored, rfl⟩ := mem_map.mp mem
    exact confines.references entry stored
  · obtain ⟨entry, stored, rfl⟩ := mem_map.mp mem
    rcases mem_assign_of_nodup confines.distinct stored with rfl | ⟨stored, other⟩
    · exact own
    · exact (confines.functions entry stored).resolve_left other

theorem Confines.overrideAll (confines : table.Confines op) {definitions : List (String × Binding)}
    (own : ∀ d ∈ definitions, d.2.Avoids op) (overridden : (op.name, .function f) ∈ definitions)
    (defined : table.defineAll definitions = .ok table') : table'.Avoids op := by
  obtain ⟨before, after, rfl⟩ := append_of_mem overridden
  rw [forall_mem_append, forall_mem_cons] at own
  obtain ⟨earlier, override, later⟩ := own
  rw [defineAll_append] at defined
  obtain ⟨first, defined₁, defined⟩ := Outcome.of_bind defined
  rw [defineAll_cons] at defined
  obtain ⟨second, defined₂, defined₃⟩ := Outcome.of_bind defined
  have confined : first.Confines op :=
    defineAll_keeps (fun d mem _ _ kept stored => kept.define (earlier d mem) stored) confines defined₁
  exact defineAll_keeps (fun d mem _ _ kept stored => kept.define (later d mem) stored)
    (confined.override override defined₂) defined₃

end Table

namespace Expansion

theorem keeps_avoids (op : Op) : Keeps (·.isOperation op = false) (fun _ t => t.Avoids op) := by
  refine keeps_every (fun _ => rfl) (fun _ => rfl) (fun _ => rfl) (fun _ _ => rfl) fun other _ => ?_
  simpa [Tree.isOperation] using other

/-- Overriding reaches everything. Where the built-in table has been changed by definitions that are read from source,
and the function of a primitive operation is among those defined, be it by the program itself, no program expands to a
tree with this operation. -/
theorem overridden_operation_absent (op : Op) {warns : Bool} {definitions : List (String × Binding)}
    (read : ∀ d ∈ definitions, d.2.IsRead) {table : Table}
    (defined : (Table.initial true warns).defineAll definitions = .ok table) {source : Surface.Source}
    {program : Surface.Program} (parsed : Surface.readProgram source = .ok program) {bound : Table}
    (extended : table.defineAll program.bindings = .ok bound)
    (overridden : ∃ f, (op.name, .function f) ∈ definitions ++ program.bindings) {expanded : Tree}
    (done : expand bound program.expression = .ok expanded) : ∀ args, .operation op args ∉ expanded.walk := by
  obtain ⟨f, overridden⟩ := overridden
  have all : (Table.initial true warns).defineAll (definitions ++ program.bindings) = .ok bound := by
    rw [Table.defineAll_append, defined]
    exact extended
  have own : ∀ d ∈ definitions ++ program.bindings, d.2.Avoids op := by
    rw [forall_mem_append]
    refine ⟨fun d mem => (read d mem).avoids op, fun d mem => ?_⟩
    exact (Binding.IsRead.statement parsed mem).avoids op
  have avoids := (Table.confines_initial op warns).overrideAll own overridden all
  have expression : program.expression.Avoids op := (Surface.isSurface_readProgram parsed).2.avoids op
  exact ((keeps_avoids op).expand avoids expression done).notMem

end Expansion

/-- A table that is given by text on top of the built-in one is what definitions that are read make of it, among them
one for each function. -/
theorem TableSpec.definitions_of_texts {spec : TableSpec} (texts : spec.IsText) {table : Table}
    (built : spec.build.outcome.1 = .ok table) : ∃ definitions : List (String × Binding),
      (∀ d ∈ definitions, d.2.IsRead) ∧ (∀ entry ∈ spec.functions, ∃ f, (entry.1, .function f) ∈ definitions) ∧
      (Table.initial spec.builtins spec.warns).defineAll definitions = .ok table := by
  obtain ⟨references, functions, follow, follow', kinds, defined⟩ := Table.definitions_of_build built
  have text₁ : spec.references.flatMap (·.2.trees) = [] := by
    refine flatMap_eq_nil_iff.mpr fun entry mem => ?_
    obtain ⟨source, given⟩ := texts.1 entry mem
    rw [given, ReferenceSpec.trees]
  have text₂ : spec.functions.flatMap (·.2.trees) = [] := by
    refine flatMap_eq_nil_iff.mpr fun entry mem => ?_
    obtain ⟨source, given⟩ := texts.2 entry mem
    rw [given, FunctionSpec.trees]
  have given₁ := follow.isGiven
  have given₂ := follow'.isGiven
  rw [text₁] at given₁
  rw [text₂] at given₂
  refine ⟨references ++ functions, ?_, fun entry mem => ?_, defined⟩
  · rw [forall_mem_append]
    exact ⟨fun d mem => (given₁ d mem).resolve_left (by simp),
      fun d mem => (given₂ d mem).resolve_left (by simp)⟩
  · obtain ⟨d, stored, same⟩ := follow'.exists_of_mem mem
    obtain ⟨f, kind⟩ := kinds d stored
    refine ⟨f, mem_append_right _ ?_⟩
    rw [← same, ← kind]
    exact stored

def outerSpec : TableSpec where
  references := []
  functions := [("geometric_product", .text "lambda a, b: a ^ b")]
  warns := false
  builtins := true

def derivedProgram : Surface.Source := .text "x: Vector\nsandwich_product(x, e1) * inverse(x)"

theorem overridden_product_absent : ∃ expanded, expansion? outerSpec derivedProgram = some expanded ∧
    (∃ args, .operation .outerProduct args ∈ expanded.walk) ∧
    ∀ args, .operation .geometricProduct args ∉ expanded.walk := by
  have runs : (expansion? outerSpec derivedProgram).map (·.walk.any (Tree.isOperation .outerProduct)) = some true := by
    decide +kernel
  obtain ⟨expanded, run, outer⟩ := Option.map_eq_some_iff.mp runs
  obtain ⟨table, program, bound, built, read, defined, done⟩ := of_expansion? run
  have texts : outerSpec.IsText := by simp [TableSpec.IsText, outerSpec]
  obtain ⟨definitions, given, functions, made⟩ := outerSpec.definitions_of_texts texts built
  obtain ⟨f, mem⟩ := functions ("geometric_product", .text "lambda a, b: a ^ b") (by simp [outerSpec])
  refine ⟨expanded, run, ?_, ?_⟩
  · obtain ⟨node, below, found⟩ := any_eq_true.mp outer
    cases node with
    | operation op args =>
      obtain rfl : op = .outerProduct := by simpa [Tree.isOperation] using found
      exact ⟨args, below⟩
    | _ => cases found
  · exact overridden_operation_absent .geometricProduct given made read defined
      ⟨f, mem_append_left _ mem⟩ done

end Bladewright
