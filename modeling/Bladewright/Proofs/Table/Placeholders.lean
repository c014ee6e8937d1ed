import Bladewright.Proofs.Table.Definitions

/-!
The placeholders of stored trees. A definition compares the largest placeholder of a tree with the number of
arguments, so in every table a function has none from that number on, and a reference none from zero on
(`Table.Checked`).
-/
namespace Bladewright

open List Expansion

namespace Tree

variable {t : Tree}

theorem le_maxArgument : ∀ i ∈ t.arguments, i ≤ t.maxArgument := by
  have fold (is : List Int) : ∀ first, first ≤ is.foldl max first ∧ ∀ i ∈ is, i ≤ is.foldl max first := by
    induction is with
    | nil => simp
    | cons j is ih =>
      intro first
      obtain ⟨above, each⟩ := ih (max first j)
      rw [foldl_cons, forall_mem_cons]
      exact ⟨by omega, by omega, each⟩
  intro i mem
  unfold maxArgument
  split
  · rename_i none
    simp [none] at mem
  · rename_i first rest listed
    rw [listed] at mem
    obtain ⟨above, each⟩ := fold rest first
    rcases mem_cons.mp mem with rfl | mem
    · exact above
    · exact each i mem

def IsPlaced (count : Int) (t : Tree) : Prop := t.Every fun node => ∀ i, node = .argument i → 0 ≤ i ∧ i < count

theorem isPlaced_iff {count : Int} : t.IsPlaced count ↔ ∀ i ∈ t.arguments, 0 ≤ i ∧ i < count := by
  constructor
  · intro placed i mem
    exact placed (.argument i) (mem_arguments.mp mem) i rfl
  · rintro each node below i rfl
    exact each i (mem_arguments.mpr below)

theorem isPlaced_zero_iff : t.IsPlaced 0 ↔ t.arguments = [] := by
  rw [isPlaced_iff]
  constructor
  · intro each
    refine eq_nil_iff_forall_not_mem.mpr fun i mem => ?_
    have := each i mem
    omega
  · intro none
    simp [none]

end Tree

namespace Table

/-- What holds of every table: placeholders are below the number of arguments of their function, and below zero in
references, and no function calls itself. -/
structure Checked (table : Table) : Prop where
  references : ∀ entry ∈ table.references, ∀ i ∈ entry.2.arguments, i < 0
  functions : ∀ entry ∈ table.functions, 0 ≤ entry.2.arity ∧ (∀ i ∈ entry.2.body.arguments, i < entry.2.arity) ∧
    entry.2.body.callsTo entry.1 = false

/-- All placeholders stand for arguments of their function, and references have none. -/
structure Placed (table : Table) : Prop where
  references : ∀ entry ∈ table.references, entry.2.arguments = []
  functions : ∀ entry ∈ table.functions, ∀ i ∈ entry.2.body.arguments, 0 ≤ i ∧ i < entry.2.arity

def Nonnegative (table : Table) : Prop := ∀ t ∈ table.trees, ∀ i ∈ t.arguments, 0 ≤ i

variable {table table' : Table}

theorem Checked.placed_iff (checked : table.Checked) : table.Placed ↔ table.Nonnegative := by
  constructor
  · intro placed t mem i inside
    rcases mem_append.mp mem with mem | mem
    · obtain ⟨entry, stored, rfl⟩ := mem_map.mp mem
      simp [placed.references entry stored] at inside
    · obtain ⟨entry, stored, rfl⟩ := mem_map.mp mem
      exact (placed.functions entry stored i inside).1
  · intro nonnegative
    refine ⟨fun entry stored => ?_, fun entry stored i inside => ?_⟩
    · refine eq_nil_iff_forall_not_mem.mpr fun i inside => ?_
      have low := checked.references entry stored i inside
      have high := nonnegative entry.2 (mem_append_left _ (mem_map_of_mem stored)) i inside
      omega
    · have stays : entry.2.body ∈ table.trees :=
        mem_append_right _ (mem_map_of_mem (f := fun entry : String × Callable => entry.2.body) stored)
      exact ⟨nonnegative _ stays i inside, (checked.functions entry stored).2.1 i inside⟩

/-! ### Every table is checked -/

theorem checked_initial (builtins warns : Bool) : (initial builtins warns).Checked := by
  cases builtins with
  | false => exact ⟨by simp [initial], by simp [initial]⟩
  | true =>
    have references : ∀ entry ∈ Builtin.references, ∀ i ∈ entry.2.arguments, i < 0 := by decide
    have functions : ∀ entry ∈ Builtin.functions, 0 ≤ entry.2.arity ∧
        (∀ i ∈ entry.2.body.arguments, i < entry.2.arity) ∧ entry.2.body.callsTo entry.1 = false := by decide +kernel
    exact ⟨references, functions⟩

theorem nonnegative_initial (builtins warns : Bool) : (initial builtins warns).Nonnegative := by
  cases builtins with
  | false => simp [initial, Nonnegative, trees]
  | true =>
    show ∀ t ∈ (initial true false).trees, ∀ i ∈ t.arguments, 0 ≤ i
    decide +kernel

variable {binding : Binding} {name : String}

theorem Checked.define (checked : table.Checked)
    (defined : table.define name binding = .ok table') : table'.Checked := by
  obtain ⟨passes, rfl⟩ := of_define defined
  cases binding with
  | reference rhs =>
    refine ⟨fun entry stored i inside => ?_, checked.functions⟩
    rcases mem_assign stored with rfl | stored
    · exact Int.lt_of_le_of_lt (Tree.le_maxArgument i inside) passes
    · exact checked.references entry stored i inside
  | function f =>
    refine ⟨checked.references, fun entry stored => ?_⟩
    rcases mem_assign stored with rfl | stored
    · refine ⟨passes.1, fun i inside => ?_, passes.2.2⟩
      exact Int.lt_of_le_of_lt (Tree.le_maxArgument i inside) passes.2.1
    · exact checked.functions entry stored

theorem Nonnegative.define (nonnegative : table.Nonnegative)
    (own : ∀ i ∈ binding.tree.arguments, 0 ≤ i) (defined : table.define name binding = .ok table') :
    table'.Nonnegative := by
  intro t mem
  rcases mem_trees_define defined mem with rfl | mem
  · exact own
  · exact nonnegative t mem

theorem nonnegative_of_isRead (read : binding.IsRead) : ∀ i ∈ binding.tree.arguments, 0 ≤ i := by
  obtain ⟨params, Listed, own⟩ := read.exists_isScoped
  intro i mem
  cases binding with
  | reference rhs => exact (Tree.IsScoped.of_mem_arguments own i mem).1
  | function f => exact (own.2.of_mem_arguments i mem).1

end Table

/-! ### Placeholders along a run -/

namespace Expansion

/-- Whether an error is met on a placeholder that stands for no argument. -/
def Error.isMisplaced : Error → Bool
  | noFunction _ | noArgument _ | beforeArguments _ => true
  | _ => false

variable {table : Table}

theorem placeholder_of_placed {frame : Frame} {index : Int} (low : 0 ≤ index)
    (high : index < ((frame.getD []).length : Int)) : ∃ t, placeholder frame index = .ok t := by
  obtain ⟨i, rfl⟩ := Int.eq_ofNat_of_zero_le low
  cases frame with
  | none => simp at high; omega
  | some args =>
    have inside : i < args.length := by simpa using high
    have within : ¬(args.length : Int) ≤ i := by omega
    have counted : ¬(i : Int) < 0 := by omega
    refine ⟨args[i], ?_⟩
    simp only [placeholder, if_neg within, if_neg counted]
    rw [List.getElem?_eq_getElem inside]
    rfl

theorem VisitsAll.length {stack : List Key} {frame : Frame} {trees ts : List Tree} {trail : List (List Key)}
    {outcome : Except Error (List Tree)} (visits : VisitsAll table stack frame trees trail outcome)
    (done : outcome = .ok ts) : ts.length = trees.length := by
  induction trees generalizing trail outcome ts with
  | nil =>
    cases visits
    cases done
    rfl
  | cons t trees ih =>
    cases visits with
    | error => cases done
    | cons _ visits =>
      obtain ⟨rest, expanded, rfl⟩ := Outcome.of_map done
      rw [length_cons, length_cons, ih visits expanded]

variable {name : String}

theorem isPlaced_body (placed : table.Placed) {f : Callable} (found : table.function? name = some f)
    {args : List Tree} (arity : f.arity = args.length) : f.body.IsPlaced args.length := by
  rw [Tree.isPlaced_iff, ← arity]
  exact placed.functions _ (mem_of_lookup found)

theorem isPlaced_rhs (placed : table.Placed) {rhs : Tree} (found : table.reference? name = some rhs) :
    rhs.IsPlaced 0 := Tree.isPlaced_zero_iff.mpr (placed.references _ (mem_of_lookup found))

mutual

theorem Visits.not_misplaced {stack : List Key} {host : Bool} {frame : Frame} {tree : Tree} {trail : List (List Key)}
    {outcome : Except Error Tree} (placed : table.Placed) : Visits table stack host frame tree trail outcome →
    tree.IsPlaced (frame.getD []).length → ∀ e, outcome = .error e → e.isMisplaced = false
  | .argument _ _ _ index => by
    intro own e failed
    obtain ⟨low, high⟩ := (Tree.every_of_leaf rfl).mp own index rfl
    obtain ⟨t, found⟩ := placeholder_of_placed low high
    rw [found] at failed
    cases failed
  | .typed visits => by
    intro own e failed
    exact visits.not_misplaced placed (Tree.every_typed.mp own).2 e (Outcome.of_map_error failed)
  | .operation visits => by
    intro own e failed
    exact visits.not_misplaced placed (Tree.every_operation.mp own).2 e (Outcome.of_map_error failed)
  | .reference found _ visits => by
    intro _ e failed
    exact visits.not_misplaced placed (isPlaced_rhs placed found) e failed
  | .hostCallError _ read => by
    rintro _ _ ⟨⟩
    rcases hostSource_error read with rfl | ⟨index, rfl⟩ <;> rfl
  | .argumentsError _ _ _ visits => by
    rintro own _ ⟨⟩
    exact visits.not_misplaced placed (Tree.every_call.mp own).2 _ rfl
  | .function found arity _ visits visits' => by
    intro _ e failed
    have body := isPlaced_body placed found arity
    rw [← visits.length rfl] at body
    exact visits'.not_misplaced placed body e failed
  | .unknown .. | .referenceCycle .. | .unboundName .. | .longName .. | .unboundCall .. | .wrongArity ..
  | .functionCycle .. => by
    rintro _ _ ⟨⟩
    rfl
  | .literal .. | .blade .. | .host .. | .selfTyped .. | .hostName .. | .bladeName .. | .hostCall .. => by
    rintro _ _ ⟨⟩

theorem VisitsAll.not_misplaced {stack : List Key} {frame : Frame} {trees : List Tree} {trail : List (List Key)}
    {outcome : Except Error (List Tree)} (placed : table.Placed) : VisitsAll table stack frame trees trail outcome →
    (∀ t ∈ trees, t.IsPlaced (frame.getD []).length) → ∀ e, outcome = .error e → e.isMisplaced = false
  | .nil .. => by
    rintro _ _ ⟨⟩
  | .error visits => by
    rintro own _ ⟨⟩
    exact visits.not_misplaced placed (own _ mem_cons_self) _ rfl
  | .cons _ visits => by
    intro own e failed
    rw [forall_mem_cons] at own
    exact visits.not_misplaced placed own.2 e (Outcome.of_map_error failed)

end

theorem expand_not_misplaced (placed : table.Placed) {tree : Tree} (own : tree.arguments = []) {e : Error}
    (failed : expand table tree = .error e) : e.isMisplaced = false := by
  obtain ⟨trail, visits⟩ := visits_expand table tree
  exact visits.not_misplaced placed (Tree.isPlaced_zero_iff.mpr own) e failed

end Expansion

namespace Table

/-- Every table that is built and then changed by any calls, accepted or rejected, is checked: its functions have
placeholders below the number of their arguments only and do not call themselves, and its references have none from zero
on. All placeholders stand for arguments exactly if no stored tree has a negative one, which is so if none was handed
in; then no expansion of a tree without placeholders looks one up in vain. A rejected call leaves the table as it was,
and any other leaves alone what it does not name. -/
theorem reached_placeholders {spec : TableSpec} {start : Table} (built : spec.build.outcome.1 = .ok start)
    (changes : List Change) {table : Table} (reached : changes.foldl after start = table) :
    table.Checked ∧
    (table.Placed ↔ ∀ t ∈ table.trees, ∀ i ∈ t.arguments, 0 ≤ i) ∧
    ((∀ t ∈ spec.trees ++ changes.flatMap Change.trees, ∀ i ∈ t.arguments, 0 ≤ i) → table.Placed) ∧
    (table.Placed → ∀ tree : Tree, tree.arguments = [] → ∀ e, expand table tree = .error e → e.isMisplaced = false) ∧
    ∀ change : Change,
      (∀ e, (change.attempt table).outcome.1 = .error e → table.after change = table) ∧
      ∀ key ∉ change.keys, binding? (table.after change) key = binding? table key := by
  obtain ⟨definitions, given, defined⟩ := definitions_of_reached built changes
  rw [reached] at defined
  have checked : table.Checked :=
    defineAll_keeps (fun _ _ _ _ before stored => before.define stored) (checked_initial _ _) defined
  refine ⟨checked, checked.placed_iff, fun handed => checked.placed_iff.mpr ?_,
    fun placed tree own e failed => expand_not_misplaced placed own failed, fun change => ?_⟩
  · refine defineAll_keeps (fun d mem _ _ before stored => before.define ?_ stored) (nonnegative_initial _ _) defined
    rcases given d mem with own | read
    · exact handed _ own
    · exact nonnegative_of_isRead read
  · exact ⟨fun e rejected => after_of_error rejected, fun key other => binding?_after other⟩

def plainSpec : TableSpec := ⟨[], [], true, true⟩

theorem build_plainSpec : plainSpec.build.outcome.1 = .ok builtin := rfl

def swapChanges : List Change :=
  [.function "swap" ⟨2, .call "subtract" [.argument 1, .argument 0]⟩,
   .function "loop" ⟨1, .call "loop" [.argument 0]⟩,
   .extended [("k", .reference (.literal 2)), ("r", .reference (.argument 0))]]

theorem reached_swapChanges : let table := swapChanges.foldl after builtin
    plainSpec.build.outcome.1 = .ok builtin ∧ (table.function? "swap").isSome ∧ table.function? "loop" = none ∧
    table.reference? "k" = none ∧ table.Placed := by
  have handed : ∀ t ∈ plainSpec.trees ++ swapChanges.flatMap Change.trees, ∀ i ∈ t.arguments, 0 ≤ i := by
    decide +kernel
  have placed := (reached_placeholders build_plainSpec swapChanges rfl).2.2.1 handed
  exact ⟨build_plainSpec, rfl, rfl, rfl, placed⟩

def negativeChanges : List Change :=
  [.function "f" ⟨1, .argument (-1)⟩, .function "g" ⟨0, .argument (-1)⟩, .reference "r" (.tree (.argument (-1)))]

/-- Negative placeholders are stored, in functions and in a reference, and an expansion looks them up in vain. -/
theorem negative_placeholders_stored : let table := negativeChanges.foldl after builtin
    plainSpec.build.outcome.1 = .ok builtin ∧ table.function? "f" = some ⟨1, .argument (-1)⟩ ∧ table.reference? "r" = some (.argument (-1)) ∧
    ¬table.Placed ∧
    expand table (.call "g" []) = .error (.beforeArguments (-1)) ∧
    expand table (.symbol "r") = .error (.noFunction (-1)) := by
  intro table
  have stored : table.function? "f" = some ⟨1, .argument (-1)⟩ := rfl
  refine ⟨build_plainSpec, stored, rfl, fun placed => ?_, rfl, rfl⟩
  have range : (Tree.argument (-1)).IsPlaced [Tree.literal 1].length := isPlaced_body placed stored rfl
  have := (Tree.every_of_leaf rfl).mp range (-1) rfl
  omega

end Table

end Bladewright
