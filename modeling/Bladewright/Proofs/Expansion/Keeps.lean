import Bladewright.Proofs.Expansion.Run

/-!
Properties that expansion keeps.
-/
namespace Bladewright

open List

namespace Tree

theorem walkAll_eq (ts : List Tree) : walkAll ts = ts.flatMap walk := by
  induction ts with
  | nil => rfl
  | cons t ts ih => rw [walkAll, ih, flatMap_cons]

def Every (P : Tree → Prop) (t : Tree) : Prop := ∀ node ∈ t.walk, P node

variable {P : Tree → Prop} {args : List Tree}

theorem every_of_leaf {t : Tree} (leaf : t.walk = [t]) : t.Every P ↔ P t := by
  simp [Every, leaf]

theorem every_typed {operand : Tree} {spec : GradeSpec} :
    (typed operand spec).Every P ↔ P (typed operand spec) ∧ operand.Every P := by
  simp [Every, walk]

theorem every_operation {op : Op} : (operation op args).Every P ↔ P (operation op args) ∧ ∀ t ∈ args, t.Every P := by
  simp only [Every, walk, walkAll_eq, forall_mem_cons, forall_mem_flatMap]

theorem every_call {name : String} : (call name args).Every P ↔ P (call name args) ∧ ∀ t ∈ args, t.Every P := by
  simp only [Every, walk, walkAll_eq, forall_mem_cons, forall_mem_flatMap]

end Tree

def Binding.tree : Binding → Tree
  | reference rhs => rhs
  | function f => f.body

def Table.trees (table : Table) : List Tree :=
  table.references.map (·.2) ++ table.functions.map (·.2.body)

namespace Table

variable {name : String}

theorem mem_assign {α : Type} {entries : List (String × α)} {value : α} {entry : String × α}
    (mem : entry ∈ assign entries name value) : entry = (name, value) ∨ entry ∈ entries := by
  induction entries with
  | nil => exact .inl (mem_singleton.mp mem)
  | cons first rest ih =>
    unfold assign at mem
    split at mem
    · rename_i found
      rcases mem_cons.mp mem with rfl | mem
      · exact .inl (by rw [found])
      · exact .inr (mem_cons_of_mem _ mem)
    · rcases mem_cons.mp mem with rfl | mem
      · exact .inr mem_cons_self
      · exact (ih mem).imp_right (mem_cons_of_mem _)

theorem mem_trees_define {table table' : Table} {binding : Binding}
    (defined : table.define name binding = .ok table') {t : Tree} (mem : t ∈ table'.trees) :
    t = binding.tree ∨ t ∈ table.trees := by
  cases binding with
  | reference rhs =>
    simp only [define, defineReference] at defined
    split at defined
    · cases defined
    · cases defined
      rcases mem_append.mp mem with mem | mem
      · obtain ⟨entry, stored, rfl⟩ := mem_map.mp mem
        refine (mem_assign stored).imp (congrArg Prod.snd) fun stored => ?_
        exact mem_append_left _ (mem_map_of_mem stored)
      · exact .inr (mem_append_right _ mem)
  | function f =>
    have stored : table' = table.storeFunction name f := by
      simp only [define, defineFunction] at defined
      split at defined
      · cases defined
      · split at defined
        · cases defined
        · split at defined
          · cases defined
          · cases defined
            rfl
    subst stored
    rcases mem_append.mp mem with mem | mem
    · exact .inr (mem_append_left _ mem)
    · obtain ⟨entry, stored, rfl⟩ := mem_map.mp mem
      refine (mem_assign stored).imp (congrArg fun entry : String × Callable => entry.2.body) fun stored => ?_
      exact mem_append_right _ (mem_map_of_mem stored)

end Table

namespace Expansion

variable {name : String} {t : Tree}

theorem mem_trees_of_reference {table : Table} {rhs : Tree}
    (found : table.reference? name = some rhs) : rhs ∈ table.trees :=
  mem_append_left _ (mem_map.mpr ⟨_, mem_of_lookup found, rfl⟩)

theorem mem_trees_of_function {table : Table} {f : Callable}
    (found : table.function? name = some f) : f.body ∈ table.trees :=
  mem_append_right _ (mem_map.mpr ⟨_, mem_of_lookup found, rfl⟩)

theorem placeholder_mem {frame : Frame} {index : Int} (found : placeholder frame index = .ok t) :
    t ∈ frame.getD [] := by
  unfold placeholder at found
  cases frame with
  | none => cases found
  | some args =>
    simp only at found
    split at found
    · cases found
    · split at found
      · split at found
        · rename_i read
          cases found
          exact mem_of_getElem? read
        · cases found
      · cases found

/-! ### Properties along a run -/

/-- The rules of expansion take a property `P` of all nodes of a tree to a property `Done` of what the tree
expands to, directly under a type (`true`) or not. -/
structure Keeps (P : Tree → Prop) (Done : Bool → Tree → Prop) : Prop where
  literal {value : Scalar} (host : Bool) : P (.literal value) → Done host (.literal value)
  blade {factors : List Int} (host : Bool) : P (.blade factors) → Done host (.blade factors)
  host {source : String} (host : Bool) : P (.host source) → Done host (.host source)
  /-- An unbound name can be a blade. -/
  basis (factors : List Nat) : Done false (.blade (factors.map Int.ofNat))
  /-- Under a type, an unbound name or call is a host input. -/
  input (source : String) : Done true (.host source)
  /-- An expanded argument or binding can also stand under a type. -/
  under {t : Tree} : Done false t → Done true t
  typed {operand : Tree} {spec : GradeSpec} (host : Bool) : Done true operand → Done host (.typed operand spec)
  operation {op : Op} {args expanded : List Tree} (host : Bool) : P (.operation op args) →
    expanded.length = args.length → (∀ t ∈ expanded, Done false t) → Done host (.operation op expanded)

variable {table : Table} {P : Tree → Prop} {Done : Bool → Tree → Prop}

theorem Keeps.anywhere (keeps : Keeps P Done) (host : Bool) (done : Done false t) : Done host t := by
  cases host with
  | false => exact done
  | true => exact keeps.under done

mutual

/-- A property of all nodes of the table and of a tree is carried to the expansion of the tree, if the arguments
that stand in for placeholders have been expanded with it. -/
theorem Visits.keeps {stack : List Key} {host : Bool} {frame : Frame} {tree : Tree} {trail : List (List Key)}
    {outcome : Except Error Tree} (keeps : Keeps P Done) (bound : ∀ t ∈ table.trees, t.Every P)
    (given : ∀ t ∈ frame.getD [], Done false t) :
    Visits table stack host frame tree trail outcome → tree.Every P → ∀ t, outcome = .ok t → Done host t
  | .literal .. => by
    rintro own _ ⟨⟩
    exact keeps.literal host ((Tree.every_of_leaf rfl).mp own)
  | .blade .. => by
    rintro own _ ⟨⟩
    exact keeps.blade host ((Tree.every_of_leaf rfl).mp own)
  | .host .. => by
    rintro own _ ⟨⟩
    exact keeps.host host ((Tree.every_of_leaf rfl).mp own)
  | .argument .. => by
    intro _ t found
    exact keeps.anywhere host (given t (placeholder_mem found))
  | .typed visits => by
    intro own t done
    obtain ⟨operand, expanded, rfl⟩ := Outcome.of_map done
    exact keeps.typed host (Visits.keeps keeps bound given visits (Tree.every_typed.mp own).2 operand expanded)
  | .operation visits => by
    intro own t done
    obtain ⟨args, expanded, rfl⟩ := Outcome.of_map done
    obtain ⟨node, below⟩ := Tree.every_operation.mp own
    obtain ⟨count, each⟩ := VisitsAll.keeps keeps bound given visits below args expanded
    exact keeps.operation host node count each
  | .reference found _ visits => by
    intro _ t done
    have entered := Visits.keeps keeps bound (by simp) visits (bound _ (mem_trees_of_reference found)) t done
    exact keeps.anywhere host entered
  | .function found _ _ visits visits' => by
    intro own t done
    obtain ⟨-, each⟩ := VisitsAll.keeps keeps bound given visits (Tree.every_call.mp own).2 _ rfl
    refine keeps.anywhere host (Visits.keeps keeps bound ?_ visits' (bound _ (mem_trees_of_function found)) t done)
    exact each
  | .selfTyped .. | .hostName .. | .hostCall .. => by
    rintro _ _ ⟨⟩
    exact keeps.input _
  | .bladeName .. => by
    rintro _ _ ⟨⟩
    exact keeps.basis _
  | .unknown .. | .referenceCycle .. | .unboundName .. | .longName .. | .hostCallError .. | .unboundCall ..
  | .wrongArity .. | .functionCycle .. | .argumentsError .. => by
    rintro _ _ ⟨⟩

theorem VisitsAll.keeps {stack : List Key} {frame : Frame} {trees : List Tree} {trail : List (List Key)}
    {outcome : Except Error (List Tree)} (keeps : Keeps P Done) (bound : ∀ t ∈ table.trees, t.Every P)
    (given : ∀ t ∈ frame.getD [], Done false t) :
    VisitsAll table stack frame trees trail outcome → (∀ t ∈ trees, t.Every P) →
    ∀ ts, outcome = .ok ts → ts.length = trees.length ∧ ∀ t ∈ ts, Done false t
  | .nil .. => by
    rintro _ _ ⟨⟩
    simp
  | .error .. => by
    rintro _ _ ⟨⟩
  | .cons visits visits' => by
    intro own ts done
    obtain ⟨rest, expanded, rfl⟩ := Outcome.of_map done
    rw [forall_mem_cons] at own ⊢
    have first := Visits.keeps keeps bound given visits own.1 _ rfl
    obtain ⟨count, others⟩ := VisitsAll.keeps keeps bound given visits' own.2 rest expanded
    exact ⟨by rw [length_cons, length_cons, count], first, others⟩

end

theorem keeps_every {Q : Tree → Prop} (literal : ∀ value, Q (.literal value)) (blade : ∀ factors, Q (.blade factors))
    (host : ∀ source, Q (.host source)) (typed : ∀ operand spec, Q (.typed operand spec))
    (operation : ∀ {op} {args expanded : List Tree}, P (.operation op args) → expanded.length = args.length →
      Q (.operation op expanded)) : Keeps P (fun _ t => t.Every Q) where
  literal _ _ := (Tree.every_of_leaf rfl).mpr (literal _)
  blade _ _ := (Tree.every_of_leaf rfl).mpr (blade _)
  host _ _ := (Tree.every_of_leaf rfl).mpr (host _)
  basis _ := (Tree.every_of_leaf rfl).mpr (blade _)
  input _ := (Tree.every_of_leaf rfl).mpr (host _)
  under done := done
  typed _ operand := Tree.every_typed.mpr ⟨typed _ _, operand⟩
  operation _ own length each := Tree.every_operation.mpr ⟨operation own length, each⟩

theorem Keeps.expand (keeps : Keeps P Done) {tree expanded : Tree} (bound : ∀ t ∈ table.trees, t.Every P)
    (own : tree.Every P) (done : expand table tree = .ok expanded) : Done false expanded := by
  obtain ⟨trail, visits⟩ := visits_expand table tree
  exact visits.keeps keeps bound (by simp) own expanded done

end Expansion

end Bladewright
