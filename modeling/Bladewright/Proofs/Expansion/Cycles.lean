import Bladewright.Proofs.Expansion.Run
import Mathlib.Data.List.Chain
import Mathlib.Logic.Relation

/-!
Cycles among bindings. A binding depends on every binding that its tree mentions (`DependsOn`). The stack of an
expansion is a path of this graph, and an expansion that succeeds has followed every path that starts in its tree.
-/
namespace Bladewright.Expansion

open List

/-! ### The graph of bindings -/

/-- The binding that a tree itself mentions: a name is a reference, a call is a function. -/
def mention? : Tree → Option Key
  | .symbol name => some ⟨.reference, name⟩
  | .call name _ => some ⟨.function, name⟩
  | _ => none

def mentions (tree : Tree) : List Key := tree.walk.filterMap mention?

def mentionsAll (trees : List Tree) : List Key := (Tree.walkAll trees).filterMap mention?

def Needs (table : Table) (tree : Tree) (key : Key) : Prop :=
  key ∈ mentions tree ∧ (boundTree? table key).isSome

/-- The tree of a binding mentions a binding of the table. -/
def DependsOn (table : Table) (key other : Key) : Prop :=
  ∃ tree, boundTree? table key = some tree ∧ Needs table tree other

def Reachable (table : Table) (tree : Tree) (key : Key) : Prop :=
  ∃ first, Needs table tree first ∧ Relation.ReflTransGen (DependsOn table) first key

/-- A reference whose right-hand side mentions its own name once, directly under a type. -/
def TypesItself (table : Table) (key : Key) : Prop :=
  key.kind = .reference ∧ ∃ rhs, table.reference? key.name = some rhs ∧
    rhs.walk.countP (Tree.isSymbol key.name) = 1 ∧ ∃ spec, .typed (.symbol key.name) spec ∈ rhs.walk

@[simp] theorem mentions_symbol (name : String) : mentions (.symbol name) = [⟨.reference, name⟩] := by
  simp [mentions, Tree.walk, mention?]

@[simp] theorem mentions_call (name : String) (args : List Tree) :
    mentions (.call name args) = ⟨.function, name⟩ :: mentionsAll args := by
  simp [mentions, mentionsAll, Tree.walk, mention?]

@[simp] theorem mentions_operation (op : Op) (args : List Tree) : mentions (.operation op args) = mentionsAll args := by
  rw [mentions, Tree.walk, filterMap_cons_none rfl, mentionsAll]

@[simp] theorem mentions_typed (operand : Tree) (spec : GradeSpec) :
    mentions (.typed operand spec) = mentions operand := by
  rw [mentions, Tree.walk, filterMap_cons_none rfl, mentions]

@[simp] theorem mentionsAll_nil : mentionsAll [] = [] := by
  simp [mentionsAll, Tree.walkAll]

@[simp] theorem mentionsAll_cons (t : Tree) (ts : List Tree) :
    mentionsAll (t :: ts) = mentions t ++ mentionsAll ts := by
  simp [mentions, mentionsAll, Tree.walkAll]

variable {table : Table} {α : Type} {key : Key} {stack mentioned : List Key} {tree root : Tree}
  {outcome : Except Error α}

theorem typesItself_of_check {name : String} {rhs : Tree}
    (found : table.reference? name = some rhs) (checked : rhs.typesItself name = true) :
    TypesItself table ⟨.reference, name⟩ := by
  simp only [Tree.typesItself, Bool.and_eq_true, beq_iff_eq] at checked
  obtain ⟨once, typedOnce⟩ := checked
  have positive : 0 < rhs.walk.countP (Tree.isTypedSymbol name) := by omega
  obtain ⟨tree, mem, isTyped⟩ := countP_pos_iff.mp positive
  refine ⟨rfl, rhs, found, once, ?_⟩
  -- A typed name is a type over exactly that name.
  cases tree with
  | typed operand spec =>
    cases operand with
    | symbol s =>
      simp only [Tree.isTypedSymbol, Tree.isSymbol, beq_iff_eq] at isTyped
      exact ⟨spec, isTyped ▸ mem⟩
    | _ => simp [Tree.isTypedSymbol, Tree.isSymbol] at isTyped
  | _ => simp [Tree.isTypedSymbol] at isTyped

/-! ### Success -/

mutual

theorem unbound_of_hostSource {table : Table} :
    ∀ {tree : Tree} {source : String}, hostSource table tree = .ok (some source) →
      ∀ key ∈ mentions tree, boundTree? table key = none
  | .host _, _, _ => by simp [mentions, Tree.walk, mention?]
  | .literal _, _, _ => by simp [mentions, Tree.walk, mention?]
  | .argument _, _, read => by simp [hostSource, throw, throwThe, MonadExceptOf.throw] at read
  | .symbol name, _, read => by
    cases found : table.reference? name with
    | none => simp [boundTree?, found]
    | some rhs => simp [hostSource, found, pure, Except.pure] at read
  | .call name args, _, read => by
    cases found : table.function? name with
    | some f => simp [hostSource, found, pure, Except.pure] at read
    | none =>
      cases reads : hostSources table args with
      | error error => simp [hostSource, found, reads, bind, Except.bind] at read
      | ok sources =>
        cases sources with
        | none => simp [hostSource, found, reads, bind, Except.bind, pure, Except.pure] at read
        | some sources =>
          have below := unbound_of_hostSources reads
          simpa [boundTree?, found] using below
  | .blade _, _, read => by simp [hostSource, pure, Except.pure] at read
  | .operation .., _, read => by simp [hostSource, pure, Except.pure] at read
  | .typed .., _, read => by simp [hostSource, pure, Except.pure] at read
  | .unknown, _, read => by simp [hostSource, pure, Except.pure] at read

theorem unbound_of_hostSources {table : Table} :
    ∀ {trees : List Tree} {sources : List String}, hostSources table trees = .ok (some sources) →
      ∀ key ∈ mentionsAll trees, boundTree? table key = none
  | [], _, _ => by simp
  | t :: ts, _, reads => by
    cases first : hostSource table t with
    | error error => simp [hostSources, first, bind, Except.bind] at reads
    | ok source =>
      cases rest : hostSources table ts with
      | error error => simp [hostSources, first, rest, bind, Except.bind] at reads
      | ok sources =>
        cases source with
        | none => simp [hostSources, first, rest, bind, Except.bind, pure, Except.pure] at reads
        | some source =>
          cases sources with
          | none => simp [hostSources, first, rest, bind, Except.bind, pure, Except.pure] at reads
          | some sources =>
            intro key mem
            rw [mentionsAll_cons, mem_append] at mem
            exact mem.elim (unbound_of_hostSource first key) (unbound_of_hostSources rest key)

end

/-- A binding that is not on the stack, and whose tree has an expansion. -/
def Entered (table : Table) (stack : List Key) (key : Key) : Prop :=
  key ∉ stack ∧ ∃ tree frame trail result, boundTree? table key = some tree ∧
    Visits table (key :: stack) false frame tree trail (.ok result)

private theorem isOk_map {β : Type} {f : α → β} : (outcome.map f).isOk ↔ outcome.isOk := by
  cases outcome <;> rfl

private theorem exists_of_isOk (ok : outcome.isOk) : ∃ a, outcome = .ok a := by
  cases outcome with
  | error error => cases ok
  | ok a => exact ⟨a, rfl⟩

mutual

theorem Visits.entered {table : Table} {key : Key} (bound : (boundTree? table key).isSome)
    {stack : List Key} {host : Bool} {frame : Frame} {tree : Tree} {trail : List (List Key)}
    {outcome : Except Error Tree} :
    Visits table stack host frame tree trail outcome → outcome.isOk → key ∈ mentions tree →
      Entered table stack key ∨ (stack.head? = some key ∧ TypesItself table key)
  | .literal .. | .blade .. | .host .. | .argument .. => by
    intro _ mem
    simp [mentions, Tree.walk, mention?] at mem
  | .typed visits | .operation visits => by
    intro ok mem
    exact visits.entered bound (isOk_map.mp ok) (by simpa using mem)
  | .reference found fresh visits => by
    intro ok mem
    simp only [mentions_symbol, mem_singleton] at mem
    subst mem
    obtain ⟨result, rfl⟩ := exists_of_isOk ok
    exact .inl ⟨fresh, _, _, _, _, found, visits⟩
  | .selfTyped found top itself => by
    intro _ mem
    simp only [mentions_symbol, mem_singleton] at mem
    subst mem
    exact .inr ⟨top, typesItself_of_check found itself⟩
  | .hostName unbound | .bladeName unbound _ => by
    intro _ mem
    simp only [mentions_symbol, mem_singleton] at mem
    subst mem
    simp [boundTree?, unbound] at bound
  | .hostCall _ read => by
    intro _ mem
    simp [unbound_of_hostSource read key mem] at bound
  | .function found _ fresh visits visits' => by
    intro ok mem
    rw [mentions_call, mem_cons] at mem
    rcases mem with rfl | mem
    · obtain ⟨result, rfl⟩ := exists_of_isOk ok
      exact .inl ⟨fresh, _, _, _, _, by simp [boundTree?, found], visits'⟩
    · exact visits.entered bound rfl mem
  | .unknown .. | .referenceCycle .. | .unboundName .. | .longName .. | .hostCallError .. | .unboundCall ..
  | .wrongArity .. | .functionCycle .. | .argumentsError .. => by
    rintro ⟨⟩

theorem VisitsAll.entered {table : Table} {key : Key} (bound : (boundTree? table key).isSome)
    {stack : List Key} {frame : Frame} {trees : List Tree} {trail : List (List Key)}
    {outcome : Except Error (List Tree)} :
    VisitsAll table stack frame trees trail outcome → outcome.isOk → key ∈ mentionsAll trees →
      Entered table stack key ∨ (stack.head? = some key ∧ TypesItself table key)
  | .nil .. => by
    intro _ mem
    simp at mem
  | .error .. => by
    rintro ⟨⟩
  | .cons visits visits' => by
    intro ok mem
    rw [mentionsAll_cons, mem_append] at mem
    rcases mem with mem | mem
    · exact visits.entered bound rfl mem
    · exact visits'.entered bound (isOk_map.mp ok) mem

end

theorem Entered.of_path {other : Key}
    (entered : Entered table stack key) (path : Relation.ReflTransGen (DependsOn table) key other) :
    ∃ deeper, stack ⊆ deeper ∧ Entered table deeper other := by
  induction path with
  | refl => exact ⟨stack, List.Subset.refl _, entered⟩
  | tail _ edge ih =>
    obtain ⟨deeper, within, fresh, tree, frame, trail, result, bound, visits⟩ := ih
    obtain ⟨tree', bound', needs⟩ := edge
    obtain rfl : tree' = tree := by simpa [bound] using bound'.symm
    rcases visits.entered needs.2 rfl needs.1 with entered | ⟨top, -⟩
    · exact ⟨_, subset_cons_of_subset _ within, entered⟩
    · -- The edge is a loop, so nothing new is on the stack.
      simp only [List.head?_cons, Option.some.injEq] at top
      subst top
      exact ⟨deeper, within, fresh, tree', frame, trail, result, bound, visits⟩

/-- After a success, a dependency within reach that leads back to where it starts is the loop of a
reference that only gives its own name a type. -/
theorem loop_of_success {result : Tree} (ok : expand table tree = .ok result)
    {next : Key} (reachable : Reachable table tree key) (edge : DependsOn table key next)
    (back : Relation.ReflTransGen (DependsOn table) next key) :
    next = key ∧ TypesItself table key := by
  obtain ⟨trail, visits⟩ := visits_expand table tree
  rw [ok] at visits
  obtain ⟨first, needs, path⟩ := reachable
  obtain ⟨entered⟩ : Nonempty (Entered table [] first) := by
    rcases visits.entered needs.2 rfl needs.1 with entered | ⟨top, -⟩
    · exact ⟨entered⟩
    · simp at top
  obtain ⟨stack, -, fresh, tree', frame, trail', result', bound, visits'⟩ := entered.of_path path
  obtain ⟨tree'', bound', needs'⟩ := edge
  obtain rfl : tree'' = tree' := by simpa [bound] using bound'.symm
  rcases visits'.entered needs'.2 rfl needs'.1 with entered' | ⟨top, itself⟩
  · -- Going on from `next` keeps `key` on the stack, so the way back cannot enter it.
    obtain ⟨deeper, within, absent, -⟩ := entered'.of_path back
    exact absurd (within mem_cons_self) absent
  · simp only [List.head?_cons, Option.some.injEq] at top
    subst top
    exact ⟨rfl, itself⟩

/-! ### Reported cycles -/

/-- The keys of a stack lead from a tree to the binding on top, one dependency after the other. -/
def Leads (table : Table) (root : Tree) : List Key → Prop
  | [] => True
  | [key] => Needs table root key
  | key :: outer :: rest => DependsOn table outer key ∧ Leads table root (outer :: rest)

/-- The tree of the binding on top of a stack. -/
def innermost? (table : Table) (root : Tree) : List Key → Option Tree
  | [] => some root
  | key :: _ => boundTree? table key

def Within (table : Table) (root : Tree) (stack : List Key) (mentioned : List Key) : Prop :=
  ∃ tree, innermost? table root stack = some tree ∧ mentioned ⊆ mentions tree

/-- Names of bindings that lead from a binding within reach back to it. -/
def ClosedPath (table : Table) (root : Tree) (kind : Kind) (names : List String) : Prop :=
  ∃ key path, names = (key :: path ++ [key]).map (·.name) ∧ key.kind = kind ∧
    Reachable table root key ∧ List.IsChain (DependsOn table) (key :: path ++ [key])

theorem Leads.push (leads : Leads table root stack) (within : Within table root stack mentioned)
    (mem : key ∈ mentioned) (bound : (boundTree? table key).isSome) :
    Leads table root (key :: stack) := by
  obtain ⟨tree, found, subset⟩ := within
  cases stack with
  | nil =>
    simp only [innermost?, Option.some.injEq] at found
    subst found
    exact ⟨subset mem, bound⟩
  | cons top rest => exact ⟨⟨tree, found, subset mem, bound⟩, leads⟩

theorem within_bound (bound : boundTree? table key = some tree) :
    Within table root (key :: stack) (mentions tree) := ⟨tree, bound, List.Subset.refl _⟩

theorem Within.mono {fewer : List Key} (within : Within table root stack mentioned) (subset : fewer ⊆ mentioned) :
    Within table root stack fewer := by
  obtain ⟨tree, found, all⟩ := within
  exact ⟨tree, found, List.Subset.trans subset all⟩

theorem Leads.reachable {table : Table} {root : Tree} :
    ∀ {stack : List Key}, Leads table root stack → ∀ key ∈ stack, Reachable table root key
  | [], _, _, mem => by simp at mem
  | [key], needs, _, mem => by
    rw [mem_singleton] at mem
    subst mem
    exact ⟨_, needs, .refl⟩
  | key :: outer :: rest, ⟨edge, leads⟩, other, mem => by
    have below := leads.reachable
    rcases mem_cons.mp mem with rfl | mem
    · obtain ⟨first, needs, path⟩ := below outer mem_cons_self
      exact ⟨first, needs, path.tail edge⟩
    · exact below other mem

theorem Leads.isChain {table : Table} {root : Tree} :
    ∀ {stack : List Key}, Leads table root stack → List.IsChain (fun inner outer => DependsOn table outer inner) stack
  | [], _ => .nil
  | [_], _ => .singleton _
  | _ :: _ :: _, ⟨edge, leads⟩ => .cons_cons edge leads.isChain

private theorem dropWhile_of_mem {key : Key} :
    ∀ {keys : List Key}, key ∈ keys → ∃ before after, keys = before ++ key :: after ∧
      keys.dropWhile (· ≠ key) = key :: after
  | first :: rest, mem => by
    by_cases same : first = key
    · exact ⟨[], rest, by simp [same], by simp [same]⟩
    · have mem : key ∈ rest := by simpa [Ne.symm same] using mem
      obtain ⟨before, after, split, dropped⟩ := dropWhile_of_mem mem
      exact ⟨first :: before, after, by simp [split], by simpa [same] using dropped⟩

theorem closedPath_cyclePath (leads : Leads table root stack) (within : Within table root stack mentioned)
    (needed : key ∈ mentioned) (bound : (boundTree? table key).isSome) (mem : key ∈ stack) :
    ClosedPath table root key.kind (cyclePath stack key) := by
  obtain ⟨before, after, split, dropped⟩ := dropWhile_of_mem (mem_reverse.mpr mem)
  refine ⟨key, after, ?_, rfl, leads.reachable key mem, ?_⟩
  · rw [cyclePath, dropped]
    simp
  · have chain := isChain_reverse.mpr (leads.push within needed bound).isChain
    rw [reverse_cons, split, append_assoc] at chain
    exact chain.right_of_append

mutual

theorem hostSource_error {table : Table} : ∀ {tree : Tree} {error : Error}, hostSource table tree = .error error →
      error = .tooManyDigits ∨ ∃ index, error = .hostArgument index
  | .host _, _, failed => by simp [hostSource, pure, Except.pure] at failed
  | .literal value, _, failed => by
    rw [hostSource] at failed
    split at failed <;> cases failed
    exact .inl rfl
  | .argument index, _, failed => by
    cases failed
    exact .inr ⟨index, rfl⟩
  | .symbol _, _, failed => by simp [hostSource, pure, Except.pure] at failed
  | .call name args, _, failed => by
    cases found : table.function? name with
    | some f => simp [hostSource, found, pure, Except.pure] at failed
    | none =>
      cases reads : hostSources table args with
      | error error =>
        simp only [hostSource, found, reads, bind, Except.bind, Option.isSome_none, Bool.false_eq_true,
          if_false, Except.error.injEq] at failed
        exact failed ▸ hostSources_error reads
      | ok sources => cases sources <;> simp [hostSource, found, reads, bind, Except.bind, pure, Except.pure] at failed
  | .blade _, _, failed => by simp [hostSource, pure, Except.pure] at failed
  | .operation .., _, failed => by simp [hostSource, pure, Except.pure] at failed
  | .typed .., _, failed => by simp [hostSource, pure, Except.pure] at failed
  | .unknown, _, failed => by simp [hostSource, pure, Except.pure] at failed

theorem hostSources_error {table : Table} :
    ∀ {trees : List Tree} {error : Error}, hostSources table trees = .error error →
      error = .tooManyDigits ∨ ∃ index, error = .hostArgument index
  | [], _, failed => by simp [hostSources, pure, Except.pure] at failed
  | t :: ts, _, failed => by
    cases first : hostSource table t with
    | error error =>
      simp only [hostSources, first, bind, Except.bind, Except.error.injEq] at failed
      exact failed ▸ hostSource_error first
    | ok source =>
      cases rest : hostSources table ts with
      | error error =>
        simp only [hostSources, first, rest, bind, Except.bind, Except.error.injEq] at failed
        exact failed ▸ hostSources_error rest
      | ok sources =>
        cases source <;> cases sources <;>
          simp [hostSources, first, rest, bind, Except.bind, pure, Except.pure] at failed

end

theorem placeholder_ne_cycle (frame : Frame) (index : Int) (kind : Kind) (names : List String) :
    placeholder frame index ≠ .error (.cycle kind names) := by
  unfold placeholder
  intro failed
  split at failed
  · simp [throw, throwThe, MonadExceptOf.throw] at failed
  · split at failed
    · simp [throw, throwThe, MonadExceptOf.throw] at failed
    · dsimp only at failed
      split at failed
      · split at failed <;> simp [throw, throwThe, MonadExceptOf.throw, pure, Except.pure] at failed
      · simp [throw, throwThe, MonadExceptOf.throw] at failed

mutual

theorem Visits.closedPath {table : Table} {root : Tree} {kind : Kind} {names : List String}
    {stack : List Key} {host : Bool} {frame : Frame} {tree : Tree} {trail : List (List Key)}
    {outcome : Except Error Tree} :
    Visits table stack host frame tree trail outcome → outcome = .error (.cycle kind names) →
      Leads table root stack → Within table root stack (mentions tree) →
      ClosedPath table root kind names
  | .argument .. => by
    intro failed
    exact absurd failed (placeholder_ne_cycle _ _ _ _)
  | .typed visits | .operation visits => by
    intro failed leads within
    exact visits.closedPath (Outcome.of_map_error failed) leads (by simpa using within)
  | .reference found fresh visits => by
    intro failed leads within
    exact visits.closedPath failed (leads.push within (by simp) (by simp [boundTree?, found])) (within_bound found)
  | .referenceCycle found mem _ => by
    intro failed leads within
    obtain ⟨rfl, rfl⟩ : Kind.reference = kind ∧ cyclePath _ _ = names := by simpa using failed
    exact closedPath_cyclePath leads within (by simp) (by simp [boundTree?, found]) mem
  | .hostCallError _ read => by
    intro failed
    rcases hostSource_error read with rfl | ⟨index, rfl⟩ <;> cases failed
  | .functionCycle found _ mem => by
    intro failed leads within
    obtain ⟨rfl, rfl⟩ : Kind.function = kind ∧ cyclePath _ _ = names := by simpa using failed
    exact closedPath_cyclePath leads within (by simp) (by simp [boundTree?, found]) mem
  | .argumentsError _ _ _ visits => by
    intro failed leads within
    exact visits.closedPath (by simpa using failed) leads (within.mono (by simp))
  | .function found _ fresh visits visits' => by
    intro failed leads within
    exact visits'.closedPath failed (leads.push within (by simp) (by simp [boundTree?, found]))
      (within_bound (by simp [boundTree?, found]))
  | .literal .. | .blade .. | .host .. | .unknown .. | .selfTyped .. | .hostName .. | .bladeName ..
  | .unboundName .. | .longName .. | .hostCall .. | .unboundCall .. | .wrongArity .. => by
    rintro ⟨⟩

theorem VisitsAll.closedPath {table : Table} {root : Tree} {kind : Kind} {names : List String}
    {stack : List Key} {frame : Frame} {trees : List Tree} {trail : List (List Key)}
    {outcome : Except Error (List Tree)} :
    VisitsAll table stack frame trees trail outcome → outcome = .error (.cycle kind names) →
      Leads table root stack → Within table root stack (mentionsAll trees) →
      ClosedPath table root kind names
  | .nil .. => by
    rintro ⟨⟩
  | .error visits => by
    intro failed leads within
    exact visits.closedPath (by simpa using failed) leads (within.mono (by simp))
  | .cons _ visits => by
    intro failed leads within
    exact visits.closedPath (Outcome.of_map_error failed) leads (within.mono (by simp))

end

theorem closedPath_of_cycle {kind : Kind} {names : List String}
    (failed : expand table tree = .error (.cycle kind names)) : ClosedPath table tree kind names := by
  obtain ⟨trail, visits⟩ := visits_expand table tree
  exact visits.closedPath failed trivial ⟨tree, rfl, List.Subset.refl _⟩

/-- Cycles are detected exactly. After a success, no cycle is within reach but the loops of references
whose right-hand side mentions their own name once, directly under a type; and the names of a reported
cycle are a closed path within reach. -/
theorem expand_cycles_exact (table : Table) (tree : Tree) : (∀ result, expand table tree = .ok result →
      ∀ key next, Reachable table tree key → DependsOn table key next →
        Relation.ReflTransGen (DependsOn table) next key → next = key ∧ TypesItself table key) ∧
    ∀ kind names, expand table tree = .error (.cycle kind names) → ClosedPath table tree kind names :=
  ⟨fun _ ok _ _ reachable edge back => loop_of_success ok reachable edge back,
    fun _ _ failed => closedPath_of_cycle failed⟩

def typedTable : Table :=
  ⟨[("x", .typed (.symbol "x") (.named 1 "Vector"))], [], false⟩

private theorem needs_typed (spec : GradeSpec) : Needs typedTable (.typed (.symbol "x") spec) ⟨.reference, "x"⟩ :=
  ⟨by simp, rfl⟩

theorem expand_cycles_typed_mutual : TypesItself typedTable ⟨.reference, "x"⟩ ∧
    ClosedPath mutualTable (.call "f" [.literal 1]) .function ["f", "g", "f"] := by
  have typed := (expand_cycles_exact typedTable (.symbol "x")).1 _ rfl ⟨.reference, "x"⟩ ⟨.reference, "x"⟩
    ⟨_, ⟨by simp, rfl⟩, .refl⟩ ⟨_, rfl, needs_typed _⟩ .refl
  exact ⟨typed.2, (expand_cycles_exact mutualTable _).2 _ _ (visits_outcome visits_mutual).symm⟩

end Bladewright.Expansion
