import Bladewright.Proofs.Table.Placeholders

/-!
A call stands for the body of its function with the arguments put in for the placeholders.
-/
namespace Bladewright

open List Outcome Builtin

namespace Tree

mutual

/-- A tree with its placeholders replaced by the trees of a list. A placeholder that counts none of them is kept. -/
def substitute (args : List Tree) : Tree → Tree
  | argument (.ofNat i) => args[i]?.getD (argument i)
  | call name ts => call name (substituteAll args ts)
  | operation op ts => operation op (substituteAll args ts)
  | typed operand spec => typed (substitute args operand) spec
  | t => t

def substituteAll (args : List Tree) : List Tree → List Tree
  | [] => []
  | t :: ts => substitute args t :: substituteAll args ts

end

theorem length_substituteAll (args ts : List Tree) : (substituteAll args ts).length = ts.length := by
  induction ts with
  | nil => rfl
  | cons t ts ih => rw [substituteAll, length_cons, ih, length_cons]

theorem substitute_argument {args : List Tree} {i : Nat} {t : Tree} (given : args[i]? = some t) :
    (argument i).substitute args = t := by
  show args[i]?.getD (argument i) = t
  rw [given, Option.getD_some]

def isTypedArgument : Tree → Bool
  | typed operand _ => operand.argument?.isSome
  | _ => false

/-- No placeholder stands directly under a type. -/
def PlaceholdersUntyped (t : Tree) : Prop := t.Every (isTypedArgument · = false)

theorem PlaceholdersUntyped.operand {operand : Tree} {spec : GradeSpec}
    (untyped : (typed operand spec).PlaceholdersUntyped) : operand.argument? = none := by
  obtain ⟨here, -⟩ := every_typed.mp untyped
  simpa [isTypedArgument] using here

end Tree

namespace Expansion

variable {table : Table}

/-! ### Runs without the function that they are in -/

theorem head?_of_head?_append {below : List Key} {f name : String}
    (top : (below ++ [(⟨.function, f⟩ : Key)]).head? = some ⟨.reference, name⟩) :
    below.head? = some ⟨.reference, name⟩ := by
  cases below with
  | nil => cases top
  | cons key below => exact top

mutual

theorem Visits.without {stack : List Key} {host : Bool} {frame : Frame} {tree : Tree} {trail : List (List Key)}
    {outcome : Except Error Tree} {f : String} : Visits table stack host frame tree trail outcome →
    ∀ below t, stack = below ++ [⟨.function, f⟩] → outcome = .ok t →
    ∃ trail', Visits table below host frame tree trail' (.ok t)
  | .literal .. => by
    rintro below _ _ ⟨⟩
    exact ⟨_, .literal ..⟩
  | .blade .. => by
    rintro below _ _ ⟨⟩
    exact ⟨_, .blade ..⟩
  | .host .. => by
    rintro below _ _ ⟨⟩
    exact ⟨_, .host ..⟩
  | .argument _ _ _ index => by
    intro below t _ found
    exact ⟨[below], found ▸ .argument below host frame index⟩
  | .typed visits => by
    intro below t ending done
    obtain ⟨operand, expanded, rfl⟩ := of_map done
    obtain ⟨_, again⟩ := visits.without below operand ending expanded
    exact ⟨_, .typed again⟩
  | .operation visits => by
    intro below t ending done
    obtain ⟨args, expanded, rfl⟩ := of_map done
    obtain ⟨_, again⟩ := visits.without below args ending expanded
    exact ⟨_, .operation again⟩
  | .reference found fresh visits => by
    intro below t ending done
    obtain ⟨_, again⟩ := visits.without (_ :: below) t (congrArg _ ending) done
    exact ⟨_, .reference found (fun mem => fresh (ending ▸ mem_append_left _ mem)) again⟩
  | .selfTyped found top itself => by
    rintro below _ ending ⟨⟩
    exact ⟨_, .selfTyped found (head?_of_head?_append (ending ▸ top)) itself⟩
  | .hostName found => by
    rintro below _ _ ⟨⟩
    exact ⟨_, .hostName found⟩
  | .bladeName found parsed => by
    rintro below _ _ ⟨⟩
    exact ⟨_, .bladeName found parsed⟩
  | .hostCall found read => by
    rintro below _ _ ⟨⟩
    exact ⟨_, .hostCall found read⟩
  | .function found arity fresh visits visits' => by
    intro below t ending done
    obtain ⟨_, args⟩ := visits.without below _ ending rfl
    obtain ⟨_, body⟩ := visits'.without (_ :: below) t (congrArg _ ending) done
    exact ⟨_, .function found arity (fun mem => fresh (ending ▸ mem_append_left _ mem)) args body⟩
  | .unknown .. | .referenceCycle .. | .unboundName .. | .longName .. | .hostCallError .. | .unboundCall ..
  | .wrongArity .. | .functionCycle .. | .argumentsError .. => by
    rintro _ _ _ ⟨⟩

theorem VisitsAll.without {stack : List Key} {frame : Frame} {trees : List Tree} {trail : List (List Key)}
    {outcome : Except Error (List Tree)} {f : String} :
    VisitsAll table stack frame trees trail outcome →
    ∀ below ts, stack = below ++ [⟨.function, f⟩] → outcome = .ok ts →
    ∃ trail', VisitsAll table below frame trees trail' (.ok ts)
  | .nil .. => by
    rintro below _ _ ⟨⟩
    exact ⟨_, .nil ..⟩
  | .error .. => by
    rintro _ _ _ ⟨⟩
  | .cons visits visits' => by
    intro below ts ending done
    obtain ⟨rest, expanded, rfl⟩ := of_map done
    obtain ⟨_, first⟩ := visits.without below _ ending rfl
    obtain ⟨_, others⟩ := visits'.without below rest ending expanded
    exact ⟨_, .cons first others⟩

end

/-! ### Arguments put in as they are -/

theorem VisitsAll.getElem? {stack : List Key} {frame : Frame} {trees expanded : List Tree} {trail : List (List Key)}
    {outcome : Except Error (List Tree)} (visits : VisitsAll table stack frame trees trail outcome)
    (done : outcome = .ok expanded) {i : Nat} {t' : Tree} (found : expanded[i]? = some t') :
    ∃ t trail', trees[i]? = some t ∧ Visits table stack false frame t trail' (.ok t') := by
  induction trees generalizing i expanded trail outcome with
  | nil =>
    cases visits
    cases done
    simp at found
  | cons t trees ih =>
    cases visits with
    | error => cases done
    | cons first others =>
      obtain ⟨rest, expandedRest, rfl⟩ := of_map done
      cases i with
      | zero =>
        cases found
        exact ⟨t, _, rfl, first⟩
      | succ i => exact ih others expandedRest found

theorem getElem?_of_placeholder {args : List Tree} {i : Nat} {t : Tree} (found : placeholder (some args) i = .ok t) :
    args[i]? = some t := by
  unfold placeholder at found
  have counted : ¬(i : Int) < 0 := by omega
  simp only [if_neg counted] at found
  split at found
  · cases found
  · split at found
    · rename_i read
      cases found
      exact read
    · cases found

mutual

theorem substitute_of_hostSource (args : List Tree) : ∀ (t : Tree) (source : String),
    hostSource table t = .ok (some source) → t.substitute args = t
  | .call name ts, source, read => by
    rw [hostSource] at read
    split at read
    · cases read
    · obtain ⟨sources, readAll, read⟩ := of_bind read
      cases sources with
      | none => cases read
      | some sources => rw [Tree.substitute, substituteAll_of_hostSources args ts sources readAll]
  | .argument i, source, read => by cases read
  | .literal _, _, _ | .symbol _, _, _ | .blade _, _, _ | .host _, _, _ | .unknown, _, _ => rfl
  | .operation .., source, read | .typed .., source, read => by cases read

theorem substituteAll_of_hostSources (args : List Tree) : ∀ (ts : List Tree) (sources : List String),
    hostSources table ts = .ok (some sources) → Tree.substituteAll args ts = ts
  | [], _, _ => rfl
  | t :: ts, sources, read => by
    rw [hostSources] at read
    obtain ⟨first, readFirst, read⟩ := of_bind read
    obtain ⟨others, readOthers, read⟩ := of_bind read
    cases first with
    | none => cases read
    | some first =>
      cases others with
      | none => cases read
      | some others =>
        rw [Tree.substituteAll, substitute_of_hostSource args t first readFirst,
          substituteAll_of_hostSources args ts others readOthers]

end

/-- The trees of the second list are the expansions of those of the first, on an empty stack and outside of calls. -/
def Expansions (table : Table) (args expanded : List Tree) : Prop :=
  ∀ (i : Nat) (t' : Tree), expanded[i]? = some t' →
    ∃ t trail, args[i]? = some t ∧ Visits table [] false none t trail (.ok t')

variable {args expanded : List Tree} {f : String}

mutual

/-- A body that is expanded with the expansions of some arguments, on a stack with its function only, is expanded to
the same tree with the arguments themselves in it, on an empty stack. -/
theorem Visits.substitute {stack : List Key} {host : Bool} {frame : Frame} {tree : Tree} {trail : List (List Key)}
    {outcome : Except Error Tree} (given : Expansions table args expanded) :
    Visits table stack host frame tree trail outcome → stack = [⟨.function, f⟩] → frame = some expanded →
    tree.IsPlaced expanded.length → tree.PlaceholdersUntyped → (host = true → tree.argument? = none) →
    ∀ t, outcome = .ok t → ∃ trail', Visits table [] host none (tree.substitute args) trail' (.ok t)
  | .literal .. => by
    rintro _ _ _ _ _ _ ⟨⟩
    exact ⟨_, .literal ..⟩
  | .blade .. => by
    rintro _ _ _ _ _ _ ⟨⟩
    exact ⟨_, .blade ..⟩
  | .host .. => by
    rintro _ _ _ _ _ _ ⟨⟩
    exact ⟨_, .host ..⟩
  | .argument _ _ _ index => by
    intro _ entered placed _ untyped t' found
    obtain ⟨low, -⟩ := (Tree.every_of_leaf rfl).mp placed index rfl
    obtain ⟨i, rfl⟩ := Int.eq_ofNat_of_zero_le low
    rw [entered] at found
    obtain ⟨t, trail', here, visits⟩ := given i t' (getElem?_of_placeholder found)
    cases host with
    | false => exact ⟨trail', (Tree.substitute_argument here).symm ▸ visits⟩
    | true => cases untyped rfl
  | .typed visits => by
    intro ending entered placed untyped _ t done
    obtain ⟨operand, inner, rfl⟩ := of_map done
    obtain ⟨_, again⟩ := visits.substitute given ending entered (Tree.every_typed.mp placed).2
      (Tree.every_typed.mp untyped).2 (fun _ => untyped.operand) operand inner
    exact ⟨_, .typed again⟩
  | .operation visits => by
    intro ending entered placed untyped _ t done
    obtain ⟨ts, inner, rfl⟩ := of_map done
    obtain ⟨_, again⟩ := visits.substitute given ending entered (Tree.every_operation.mp placed).2
      (Tree.every_operation.mp untyped).2 ts inner
    exact ⟨_, .operation again⟩
  | .reference found _ visits => by
    intro ending _ _ _ _ t done
    obtain ⟨_, again⟩ := visits.without [_] t (congrArg _ ending) done
    exact ⟨_, .reference found (by simp) again⟩
  | .selfTyped _ top _ => by
    intro ending
    cases ending ▸ top
  | .hostName found => by
    rintro _ _ _ _ _ _ ⟨⟩
    exact ⟨_, .hostName found⟩
  | .bladeName found parsed => by
    rintro _ _ _ _ _ _ ⟨⟩
    exact ⟨_, .bladeName found parsed⟩
  | .hostCall found read => by
    rintro _ _ _ _ _ _ ⟨⟩
    rw [substitute_of_hostSource args _ _ read]
    exact ⟨_, .hostCall found read⟩
  | .function found arity _ visits visits' => by
    intro ending entered placed untyped _ t done
    obtain ⟨_, inner⟩ := visits.substitute given ending entered (Tree.every_call.mp placed).2
      (Tree.every_call.mp untyped).2 _ rfl
    obtain ⟨_, body⟩ := visits'.without [_] t (congrArg _ ending) done
    refine ⟨_, .function found ?_ (by simp) inner body⟩
    rw [arity, Tree.length_substituteAll]
  | .unknown .. | .referenceCycle .. | .unboundName .. | .longName .. | .hostCallError .. | .unboundCall ..
  | .wrongArity .. | .functionCycle .. | .argumentsError .. => by
    rintro _ _ _ _ _ _ ⟨⟩

theorem VisitsAll.substitute {stack : List Key} {frame : Frame} {trees : List Tree} {trail : List (List Key)}
    {outcome : Except Error (List Tree)} (given : Expansions table args expanded) :
    VisitsAll table stack frame trees trail outcome → stack = [⟨.function, f⟩] → frame = some expanded →
    (∀ t ∈ trees, t.IsPlaced expanded.length) → (∀ t ∈ trees, t.PlaceholdersUntyped) →
    ∀ ts, outcome = .ok ts → ∃ trail', VisitsAll table [] none (Tree.substituteAll args trees) trail' (.ok ts)
  | .nil .. => by
    rintro _ _ _ _ _ ⟨⟩
    exact ⟨_, .nil ..⟩
  | .error .. => by
    rintro _ _ _ _ _ ⟨⟩
  | .cons visits visits' => by
    intro ending entered placed untyped ts done
    rw [forall_mem_cons] at placed untyped
    obtain ⟨rest, inner, rfl⟩ := of_map done
    obtain ⟨_, first⟩ := visits.substitute given ending entered placed.1 untyped.1 (by simp) _ rfl
    obtain ⟨_, others⟩ := visits'.substitute given ending entered placed.2 untyped.2 rest inner
    exact ⟨_, .cons first others⟩

end

/-- Calling a function is substitution. If all placeholders of its body count its arguments, and none of them stands
directly under a type, then whatever a call expands to is what its body expands to with the arguments, not yet expanded,
in place of the placeholders. -/
theorem expand_substitute_of_expand_call {name : String} {callee : Callable} {t : Tree}
    (bound : table.function? name = some callee)
    (placed : ∀ i ∈ callee.body.arguments, 0 ≤ i ∧ i < callee.arity) (untyped : callee.body.PlaceholdersUntyped)
    (done : expand table (.call name args) = .ok t) : expand table (callee.body.substitute args) = .ok t := by
  obtain ⟨trail, visits⟩ := visits_expand table (.call name args)
  rw [done] at visits
  cases visits with
  | function found arity _ visits visits' =>
    cases bound.symm.trans found
    have given : Expansions table args _ := fun i t' => visits.getElem? rfl
    rw [arity, ← visits.length rfl, ← Tree.isPlaced_iff] at placed
    obtain ⟨trail', again⟩ := visits'.substitute given rfl rfl placed untyped (by simp) t rfl
    exact (visits_outcome again).symm

def typedSum : Tree := .call "add" [.symbol "x", .symbol "e12"]

theorem expand_substitute_square :
    ∃ t, expand squareTable (.call "square" [typedSum]) = .ok t ∧
      expand squareTable (.call "geometric_product" [typedSum, .call "reverse" [typedSum]]) = .ok t := by
  obtain ⟨t, done⟩ : ∃ t, expand squareTable (.call "square" [typedSum]) = .ok t := ⟨_, rfl⟩
  have bound : squareTable.function? "square" = some ⟨1, times a (call₁ "reverse" a)⟩ :=
    rfl
  have untyped : ∀ node ∈ (times a (call₁ "reverse" a)).walk,
      node.isTypedArgument = false := by decide
  exact ⟨t, done, expand_substitute_of_expand_call bound (by decide) untyped done⟩

-- Under a type the two differ: put in as it is, the name of a blade is a host input.
example :
    let table : Table := ⟨[], [("vector", ⟨1, .typed a (.named 1 "Vector")⟩)], false⟩
    expand table (.call "vector" [.symbol "e1"]) = .ok (.typed (.blade [0]) (.named 1 "Vector")) ∧
    expand table (.typed (.symbol "e1") (.named 1 "Vector")) = .ok (.typed (.host "e1") (.named 1 "Vector")) :=
  ⟨rfl, rfl⟩

end Expansion

end Bladewright
