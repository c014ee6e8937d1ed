import Bladewright.Expansion
import Bladewright.Proofs.Outcome
import Mathlib.Data.List.Perm.Subperm

/-!
Expansion as rules that know of no bound on their depth (`Visits`), with the stacks of all points that a run passes
through.
-/
namespace Bladewright.Expansion

open List

/-- The tree that a binding stands for: the right-hand side of a reference, the body of a function. -/
def boundTree? (table : Table) : Key → Option Tree
  | ⟨.reference, name⟩ => table.reference? name
  | ⟨.function, name⟩ => (table.function? name).map (·.body)

mutual

/-- `Visits table stack host frame tree trail outcome`: the expansion of `tree`, with the bindings on
`stack` being expanded already, directly under a type if `host`, and with the arguments of `frame`,
ends with `outcome`; `trail` lists the stacks of all points that it passes through. -/
inductive Visits (table : Table) : List Key → Bool → Frame → Tree → List (List Key) →
    Except Error Tree → Prop
  | literal (stack host frame value) :
    Visits table stack host frame (.literal value) [stack] (.ok (.literal value))
  | blade (stack host frame factors) :
    Visits table stack host frame (.blade factors) [stack] (.ok (.blade factors))
  | host (stack host frame source) :
    Visits table stack host frame (.host source) [stack] (.ok (.host source))
  | argument (stack host frame index) :
    Visits table stack host frame (.argument index) [stack] (placeholder frame index)
  | unknown (stack host frame) :
    Visits table stack host frame .unknown [stack] (.error (.unknownNode .unknown))
  | typed {stack host frame operand spec trail outcome} :
    Visits table stack true frame operand trail outcome →
    Visits table stack host frame (.typed operand spec) (stack :: trail) (outcome.map (.typed · spec))
  | operation {stack host frame op args trail outcome} :
    VisitsAll table stack frame args trail outcome →
    Visits table stack host frame (.operation op args) (stack :: trail) (outcome.map (.operation op))
  /-- A bound name that is not on the stack. -/
  | reference {stack host frame name rhs trail outcome} :
    table.reference? name = some rhs → ⟨.reference, name⟩ ∉ stack →
    Visits table (⟨.reference, name⟩ :: stack) false none rhs trail outcome →
    Visits table stack host frame (.symbol name) (stack :: trail) outcome
  /-- A name that its own right-hand side gives a type. -/
  | selfTyped {stack frame name rhs} :
    table.reference? name = some rhs → stack.head? = some ⟨.reference, name⟩ →
    rhs.typesItself name = true →
    Visits table stack true frame (.symbol name) [stack] (.ok (.host name))
  | referenceCycle {stack host frame name rhs} :
    table.reference? name = some rhs → ⟨.reference, name⟩ ∈ stack →
    (host && stack.head? == some ⟨.reference, name⟩ && rhs.typesItself name) = false →
    Visits table stack host frame (.symbol name) [stack]
      (.error (.cycle .reference (cyclePath stack ⟨.reference, name⟩)))
  | hostName {stack frame name} : table.reference? name = none →
    Visits table stack true frame (.symbol name) [stack] (.ok (.host name))
  | bladeName {stack frame name factors} : table.reference? name = none →
    Blade.parseName name = .ok (some factors) →
    Visits table stack false frame (.symbol name) [stack] (.ok (.blade (factors.map Int.ofNat)))
  | unboundName {stack frame name} : table.reference? name = none → Blade.parseName name = .ok none →
    Visits table stack false frame (.symbol name) [stack] (.error (.unboundReference name))
  | longName {stack frame name error} : table.reference? name = none → Blade.parseName name = .error error →
    Visits table stack false frame (.symbol name) [stack] (.error .tooManyDigits)
  | hostCall {stack frame name args source} : table.function? name = none →
    hostSource table (.call name args) = .ok (some source) →
    Visits table stack true frame (.call name args) [stack] (.ok (.host source))
  | hostCallError {stack frame name args error} : table.function? name = none →
    hostSource table (.call name args) = .error error →
    Visits table stack true frame (.call name args) [stack] (.error error)
  | unboundCall {stack host frame name args} : table.function? name = none →
    (host = true → hostSource table (.call name args) = .ok none) →
    Visits table stack host frame (.call name args) [stack] (.error (.unboundFunction name))
  | wrongArity {stack host frame name args f} : table.function? name = some f →
    f.arity ≠ args.length →
    Visits table stack host frame (.call name args) [stack] (.error (.wrongArity name f.arity args))
  | functionCycle {stack host frame name args f} : table.function? name = some f →
    f.arity = args.length → ⟨.function, name⟩ ∈ stack →
    Visits table stack host frame (.call name args) [stack]
      (.error (.cycle .function (cyclePath stack ⟨.function, name⟩)))
  /-- A call of which an argument has no expansion. -/
  | argumentsError {stack host frame name args f trail error} : table.function? name = some f →
    f.arity = args.length → ⟨.function, name⟩ ∉ stack →
    VisitsAll table stack frame args trail (.error error) →
    Visits table stack host frame (.call name args) (stack :: trail) (.error error)
  /-- A call: the arguments are expanded before the function is on the stack, its body after. -/
  | function {stack host frame name args f trail expanded trail' outcome} :
    table.function? name = some f → f.arity = args.length → ⟨.function, name⟩ ∉ stack →
    VisitsAll table stack frame args trail (.ok expanded) →
    Visits table (⟨.function, name⟩ :: stack) false (some expanded) f.body trail' outcome →
    Visits table stack host frame (.call name args) (stack :: (trail ++ trail')) outcome

/-- The same for the trees of a list, one after the other up to the first without an expansion. -/
inductive VisitsAll (table : Table) : List Key → Frame → List Tree → List (List Key) →
    Except Error (List Tree) → Prop
  | nil (stack frame) : VisitsAll table stack frame [] [] (.ok [])
  | error {stack frame t ts trail error} :
    Visits table stack false frame t trail (.error error) →
    VisitsAll table stack frame (t :: ts) trail (.error error)
  | cons {stack frame t ts t' trail trail' outcome} :
    Visits table stack false frame t trail (.ok t') →
    VisitsAll table stack frame ts trail' outcome →
    VisitsAll table stack frame (t :: ts) (trail ++ trail') (outcome.map (t' :: ·))

end

/-! ### The bindings that can be on a stack -/

/-- A stack that an expansion can have: no key twice, and each of them bound. -/
structure Sound (table : Table) (stack : List Key) : Prop where
  distinct : stack.Nodup
  bound : ∀ key ∈ stack, (boundTree? table key).isSome

def keys (table : Table) : List Key :=
  table.references.map (⟨.reference, ·.1⟩) ++ table.functions.map (⟨.function, ·.1⟩)

variable {name : String} {key : Key} {table : Table} {stack : List Key} {enter : Enter} {outcome : Except Error Tree}
  {trail : List (List Key)}

private theorem lookup_mem {α : Type} {entries : List (String × α)} {a : α}
    (found : entries.lookup name = some a) : ∃ entry ∈ entries, entry.1 = name := ⟨_, mem_of_lookup found, rfl⟩

theorem mem_keys (bound : (boundTree? table key).isSome) : key ∈ keys table := by
  obtain ⟨tree, found⟩ := Option.isSome_iff_exists.mp bound
  obtain ⟨kind, name⟩ := key
  cases kind with
  | reference =>
    obtain ⟨entry, mem, rfl⟩ := lookup_mem found
    exact mem_append_left _ (mem_map_of_mem mem)
  | function =>
    obtain ⟨f, foundFunction, -⟩ := Option.map_eq_some_iff.mp found
    obtain ⟨entry, mem, rfl⟩ := lookup_mem foundFunction
    exact mem_append_right _ (mem_map_of_mem mem)

theorem Sound.push (sound : Sound table stack)
    (bound : (boundTree? table key).isSome) (fresh : key ∉ stack) : Sound table (key :: stack) where
  distinct := nodup_cons.mpr ⟨fresh, sound.distinct⟩
  bound := by
    intro other mem
    rcases mem_cons.mp mem with rfl | mem
    · exact bound
    · exact sound.bound other mem

theorem Sound.length_le (sound : Sound table stack) :
    stack.length ≤ table.references.length + table.functions.length := by
  have within : stack ⊆ keys table := fun key mem => mem_keys (sound.bound key mem)
  have bounded := (List.Nodup.subperm sound.distinct within).length_le
  simpa [keys] using bounded

/-! ### The rules and the definition -/

/-- A way to enter bindings does what the rules say, from a given stack. -/
def Follows (table : Table) (stack : List Key) (enter : Enter) : Prop :=
  ∀ key tree frame, boundTree? table key = some tree → key ∉ stack →
    (∃ trail, Visits table (key :: stack) false frame tree trail (enter key frame tree)) ∧
    ∀ trail outcome, Visits table (key :: stack) false frame tree trail outcome →
      outcome = enter key frame tree

theorem visits_symbol (follows : Follows table stack enter) (host : Bool) (frame : Frame) (name : String) :
    ∃ trail, Visits table stack host frame (.symbol name) trail
      (expandSymbol table stack enter host name) := by
  unfold expandSymbol
  cases found : table.reference? name with
  | none =>
    cases host with
    | true => exact ⟨[stack], .hostName found⟩
    | false =>
      cases parsed : Blade.parseName name with
      | error => exact ⟨[stack], .longName found parsed⟩
      | ok factors =>
        cases factors with
        | none => exact ⟨[stack], .unboundName found parsed⟩
        | some factors => exact ⟨[stack], .bladeName found parsed⟩
  | some rhs =>
    by_cases mem : (⟨.reference, name⟩ : Key) ∈ stack
    · cases allowed : host && stack.head? == some ⟨.reference, name⟩ && rhs.typesItself name with
      | false =>
        simp only [mem, allowed, if_true, if_false, Bool.false_eq_true]
        exact ⟨[stack], .referenceCycle found mem allowed⟩
      | true =>
        simp only [mem, allowed, if_true]
        simp only [Bool.and_eq_true, beq_iff_eq] at allowed
        obtain ⟨⟨rfl, top⟩, itself⟩ := allowed
        exact ⟨[stack], .selfTyped found top itself⟩
    · simp only [mem, if_false]
      obtain ⟨⟨trail, visits⟩, -⟩ := follows ⟨.reference, name⟩ rhs none found mem
      exact ⟨stack :: trail, .reference found mem visits⟩

mutual

theorem visits_visit {table : Table} {stack : List Key} {enter : Enter}
    (follows : Follows table stack enter) (frame : Frame) :
    ∀ (host : Bool) (tree : Tree), ∃ trail,
      Visits table stack host frame tree trail (visit table stack enter host frame tree)
  | host, .literal value => ⟨[stack], .literal ..⟩
  | host, .blade factors => ⟨[stack], .blade ..⟩
  | host, .host source => ⟨[stack], .host ..⟩
  | host, .argument index => ⟨[stack], .argument ..⟩
  | host, .unknown => ⟨[stack], .unknown ..⟩
  | host, .symbol name => by
    simpa only [visit] using visits_symbol follows host frame name
  | host, .typed operand spec => by
    obtain ⟨trail, visits⟩ := visits_visit follows frame true operand
    refine ⟨stack :: trail, ?_⟩
    convert Visits.typed visits using 1
    simp only [visit]
    cases visit table stack enter true frame operand <;> rfl
  | host, .operation op args => by
    obtain ⟨trail, visits⟩ := visitsAll_visitAll follows frame args
    refine ⟨stack :: trail, ?_⟩
    convert Visits.operation visits using 1
    simp only [visit]
    cases visitAll table stack enter frame args <;> rfl
  | host, .call name args => by
    simp only [visit]
    cases found : table.function? name with
    | none =>
      cases host with
      | false => exact ⟨[stack], .unboundCall found (by simp)⟩
      | true =>
        cases read : hostSource table (.call name args) with
        | error error => exact ⟨[stack], .hostCallError found read⟩
        | ok source =>
          cases source with
          | none => exact ⟨[stack], .unboundCall found fun _ => read⟩
          | some source => exact ⟨[stack], .hostCall found read⟩
    | some f =>
      by_cases arity : f.arity = args.length
      · by_cases mem : (⟨.function, name⟩ : Key) ∈ stack
        · simp only [arity, mem, ne_eq, not_true, if_true, if_false]
          exact ⟨[stack], .functionCycle found arity mem⟩
        · simp only [arity, mem, ne_eq, not_true, if_false]
          obtain ⟨trail, visits⟩ := visitsAll_visitAll follows frame args
          cases expanded : visitAll table stack enter frame args with
          | error error =>
            rw [expanded] at visits
            exact ⟨_, .argumentsError found arity mem visits⟩
          | ok args' =>
            rw [expanded] at visits
            have body : boundTree? table ⟨.function, name⟩ = some f.body := by
              simp [boundTree?, found]
            obtain ⟨⟨trail', visits'⟩, -⟩ := follows ⟨.function, name⟩ f.body (some args') body mem
            exact ⟨_, .function found arity mem visits visits'⟩
      · simp only [arity, ne_eq, not_false_iff, if_true]
        exact ⟨[stack], .wrongArity found arity⟩

theorem visitsAll_visitAll {table : Table} {stack : List Key} {enter : Enter}
    (follows : Follows table stack enter) (frame : Frame) :
    ∀ trees : List Tree, ∃ trail,
      VisitsAll table stack frame trees trail (visitAll table stack enter frame trees)
  | [] => ⟨[], .nil ..⟩
  | t :: ts => by
    obtain ⟨trail, visits⟩ := visits_visit follows frame false t
    obtain ⟨trail', visits'⟩ := visitsAll_visitAll follows frame ts
    simp only [visitAll]
    cases first : visit table stack enter false frame t with
    | error error =>
      rw [first] at visits
      exact ⟨trail, .error visits⟩
    | ok t' =>
      rw [first] at visits
      refine ⟨trail ++ trail', ?_⟩
      convert VisitsAll.cons visits visits' using 1
      cases visitAll table stack enter frame ts <;> rfl

end

theorem outcome_symbol (follows : Follows table stack enter) {host : Bool} {frame : Frame}
    (visits : Visits table stack host frame (.symbol name) trail outcome) :
    outcome = expandSymbol table stack enter host name := by
  unfold expandSymbol
  cases visits with
  | reference found fresh visits =>
    simp only [found, fresh, if_false]
    exact (follows ⟨.reference, name⟩ _ none found fresh).2 _ _ visits
  | selfTyped found top itself =>
    have mem := mem_of_mem_head? top
    simp [found, mem, top, itself, pure, Except.pure]
  | referenceCycle found mem allowed => simp [found, mem, allowed, throw, throwThe, MonadExceptOf.throw]
  | hostName found => simp [found, pure, Except.pure]
  | bladeName found parsed => simp [found, parsed, pure, Except.pure]
  | unboundName found parsed | longName found parsed => simp [found, parsed, throw, throwThe, MonadExceptOf.throw]

mutual

theorem outcome_visit {table : Table} {stack : List Key} {enter : Enter}
    (follows : Follows table stack enter) (frame : Frame) :
    ∀ (host : Bool) (tree : Tree) (trail : List (List Key)) (outcome : Except Error Tree),
      Visits table stack host frame tree trail outcome →
      outcome = visit table stack enter host frame tree
  | host, .literal value, _, _, .literal .. => rfl
  | host, .blade factors, _, _, .blade .. => rfl
  | host, .host source, _, _, .host .. => rfl
  | host, .argument index, _, _, .argument .. => rfl
  | host, .unknown, _, _, .unknown .. => rfl
  | host, .symbol name, _, _, visits => by
    simpa only [visit] using outcome_symbol follows visits
  | host, .typed operand spec, _, _, .typed visits => by
    rw [outcome_visit follows frame true operand _ _ visits, visit]
    cases visit table stack enter true frame operand <;> rfl
  | host, .operation op args, _, _, .operation visits => by
    rw [outcome_visitAll follows frame args _ _ visits, visit]
    cases visitAll table stack enter frame args <;> rfl
  | host, .call name args, _, outcome, visits => by
    rw [visit]
    cases visits with
    | hostCall found read => simp [found, read]; rfl
    | hostCallError found read => simp [found, read]; rfl
    | unboundCall found read =>
      cases host with
      | false => simp [found]; rfl
      | true => simp [found, read]; rfl
    | wrongArity found arity => simp [found, arity]; rfl
    | functionCycle found arity mem => simp [found, arity, mem]; rfl
    | argumentsError found arity fresh visits =>
      have failed := outcome_visitAll follows frame args _ _ visits
      simp [found, arity, fresh, ← failed]; rfl
    | @function _ _ _ _ _ f _ expanded _ _ found arity fresh visits visits' =>
      have done := outcome_visitAll follows frame args _ _ visits
      have body : boundTree? table ⟨.function, name⟩ = some f.body := by simp [boundTree?, found]
      have entered := (follows ⟨.function, name⟩ f.body (some expanded) body fresh).2 _ _ visits'
      simp [found, arity, fresh, ← done, entered]; rfl

theorem outcome_visitAll {table : Table} {stack : List Key} {enter : Enter}
    (follows : Follows table stack enter) (frame : Frame) :
    ∀ (trees : List Tree) (trail : List (List Key)) (outcome : Except Error (List Tree)),
      VisitsAll table stack frame trees trail outcome →
      outcome = visitAll table stack enter frame trees
  | [], _, _, .nil .. => rfl
  | t :: ts, _, _, .error visits => by
    have failed := outcome_visit follows frame false t _ _ visits
    simp [visitAll, ← failed]; rfl
  | t :: ts, _, _, .cons visits visits' => by
    have done := outcome_visit follows frame false t _ _ visits
    rw [outcome_visitAll follows frame ts _ _ visits', visitAll, ← done]
    cases visitAll table stack enter frame ts <;> rfl

end

theorem follows_enterWithin (table : Table) : ∀ (left : Nat) (stack : List Key), Sound table stack →
      stack.length + left = table.references.length + table.functions.length →
      Follows table stack (enterWithin table left stack)
  | 0, stack, sound, count => by
    -- All bindings are on the stack, so there is none left to enter.
    intro key tree frame bound fresh
    have pushed := (sound.push (by simp [bound]) fresh).length_le
    simp only [length_cons] at pushed
    omega
  | left + 1, stack, sound, count => by
    intro key tree frame bound fresh
    have pushed : Sound table (key :: stack) := sound.push (by simp [bound]) fresh
    have follows := follows_enterWithin table left (key :: stack) pushed
      (by simp only [length_cons]; omega)
    exact ⟨visits_visit follows frame false tree, outcome_visit follows frame false tree⟩

theorem follows_expand (table : Table) :
    Follows table [] (enterWithin table (table.references.length + table.functions.length) []) :=
  follows_enterWithin table _ [] ⟨nodup_nil, by simp⟩ (by simp)

theorem visits_expand (table : Table) (tree : Tree) :
    ∃ trail, Visits table [] false none tree trail (expand table tree) :=
  visits_visit (follows_expand table) none false tree

theorem visits_outcome {tree : Tree} (visits : Visits table [] false none tree trail outcome) :
    outcome = expand table tree :=
  outcome_visit (follows_expand table) none false tree trail outcome visits

/-! ### The stacks of a run -/

mutual

theorem Visits.sound {table : Table} {stack : List Key} {host : Bool} {frame : Frame} {tree : Tree}
    {trail : List (List Key)} {outcome : Except Error Tree} (start : Sound table stack) :
    Visits table stack host frame tree trail outcome → ∀ s ∈ trail, Sound table s
  | .literal .. | .blade .. | .host .. | .argument .. | .unknown .. => by simpa using start
  | .selfTyped .. | .referenceCycle .. | .hostName .. | .bladeName .. | .unboundName .. | .longName .. => by
    simpa using start
  | .hostCall .. | .hostCallError .. | .unboundCall .. | .wrongArity .. | .functionCycle .. => by
    simpa using start
  | .typed visits => by
    have below := Visits.sound start visits
    simpa using ⟨start, below⟩
  | .operation visits => by
    have below := VisitsAll.sound start visits
    simpa using ⟨start, below⟩
  | .argumentsError _ _ _ visits => by
    have below := VisitsAll.sound start visits
    simpa using ⟨start, below⟩
  | .reference found fresh visits => by
    have below := Visits.sound (start.push (by simp [boundTree?, found]) fresh) visits
    simpa using ⟨start, below⟩
  | .function found _ fresh visits visits' => by
    have beside := VisitsAll.sound start visits
    have below := Visits.sound (start.push (by simp [boundTree?, found]) fresh) visits'
    intro s mem
    rcases mem_cons.mp mem with rfl | mem
    · exact start
    · exact (mem_append.mp mem).elim (beside s) (below s)

theorem VisitsAll.sound {table : Table} {stack : List Key} {frame : Frame} {trees : List Tree}
    {trail : List (List Key)} {outcome : Except Error (List Tree)} (start : Sound table stack) :
    VisitsAll table stack frame trees trail outcome → ∀ s ∈ trail, Sound table s
  | .nil .. => by simp
  | .error visits => Visits.sound start visits
  | .cons visits visits' => by
    have first := Visits.sound start visits
    have rest := VisitsAll.sound start visits'
    intro s mem
    exact (mem_append.mp mem).elim (first s) (rest s)

end

/-- Every expansion ends: finitely many applications of the rules derive its outcome, a tree or an
error, and they derive no other one. At no point of it a key is on the stack twice, so that no stack is
longer than the table. -/
theorem expand_ends_stacks_distinct (table : Table) (tree : Tree) :
    (∃ trail, Visits table [] false none tree trail (expand table tree)) ∧
    ∀ trail outcome, Visits table [] false none tree trail outcome →
      outcome = expand table tree ∧
      ∀ stack ∈ trail, stack.Nodup ∧
        stack.length ≤ table.references.length + table.functions.length := by
  refine ⟨visits_expand table tree, ?_⟩
  intro trail outcome visits
  refine ⟨visits_outcome visits, ?_⟩
  intro stack mem
  have sound := visits.sound ⟨nodup_nil, by simp⟩ stack mem
  exact ⟨sound.distinct, sound.length_le⟩

def mutualTable : Table :=
  (Table.initial false false).storeFunction "f" ⟨1, .call "g" [.argument 0]⟩
    |>.storeFunction "g" ⟨1, .call "f" [.argument 0]⟩

theorem visits_mutual : Visits mutualTable [] false none (.call "f" [.literal 1])
      [[], [], [⟨.function, "f"⟩], [⟨.function, "f"⟩], [⟨.function, "g"⟩, ⟨.function, "f"⟩]]
      (.error (.cycle .function ["f", "g", "f"])) := by
  have first : Visits mutualTable [] false none (.literal 1) [[]] (.ok (.literal 1)) := .literal ..
  have again : Visits mutualTable [⟨.function, "f"⟩] false (some [.literal 1]) (.argument 0)
      [[⟨.function, "f"⟩]] (.ok (.literal 1)) := .argument ..
  have cycle : Visits mutualTable [⟨.function, "g"⟩, ⟨.function, "f"⟩] false (some [.literal 1])
      (.call "f" [.argument 0]) [[⟨.function, "g"⟩, ⟨.function, "f"⟩]]
      (.error (.cycle .function ["f", "g", "f"])) := .functionCycle rfl rfl (by decide)
  exact .function rfl rfl (by decide) (VisitsAll.cons first (.nil ..))
    (.function rfl rfl (by decide) (VisitsAll.cons again (.nil ..)) cycle)

theorem expand_mutual_ends : expand mutualTable (.call "f" [.literal 1]) = .error (.cycle .function ["f", "g", "f"]) ∧
    ([⟨.function, "g"⟩, ⟨.function, "f"⟩] : List Key).Nodup := by
  have ends := (expand_ends_stacks_distinct mutualTable (.call "f" [.literal 1])).2 _ _ visits_mutual
  exact ⟨ends.1.symm, (ends.2 _ (by simp)).1⟩

end Bladewright.Expansion
