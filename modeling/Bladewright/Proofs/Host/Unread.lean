import Bladewright.Proofs.Host.Ignorance

/-!
A name that nothing reads.
-/
namespace Bladewright.Host

open List Bladewright.Numeral Outcome
open Bladewright.Host.Value

/-- Two computations have one outcome, and a value that they return has a property. -/
def Agree {α : Type} (P : α → Prop) (first second : Except Fault α) : Prop := first = second ∧ Gives P first

namespace Agree

variable {α β : Type} {P : α → Prop} {Q : β → Prop} {first second : Except Fault α}

theorem of_gives (gives : Gives P first) : Agree P first first := ⟨rfl, gives⟩

theorem throw (fault : Fault) : Agree P (throw fault) (throw fault) := of_gives gives_throw

theorem pure {a : α} (own : P a) : Agree P (pure a) (pure a) := of_gives own

variable {f g : α → Except Fault β} {xs : List α}

theorem bind (start : Agree P first second) (next : ∀ a, P a → Agree Q (f a) (g a)) :
    Agree Q (first >>= f) (second >>= g) := by
  obtain ⟨rfl, gives⟩ := start
  cases first with
  | error => exact throw _
  | ok a => exact next a gives

theorem after {outcome : Except Fault α} (next : ∀ a, Agree Q (f a) (g a)) :
    Agree Q (outcome >>= f) (outcome >>= g) := by
  cases outcome with
  | error => exact throw _
  | ok a => exact next a

theorem guarded {condition : Bool} {fault : Fault} {x y : Unit → Except Fault α} (rest : Agree P (x ()) (y ())) :
    Agree P (if condition then x () else (MonadExcept.throw fault : Except Fault Unit) >>= x)
      (if condition then y () else (MonadExcept.throw fault : Except Fault Unit) >>= y) := by
  split
  · exact rest
  · exact throw fault

theorem mapM {γ : Type} {f g : γ → Except Fault α} {xs : List γ} (each : ∀ x ∈ xs, Agree P (f x) (g x)) :
    Agree (∀ y ∈ ·, P y) (xs.mapM f) (xs.mapM g) := by
  induction xs with
  | nil => exact pure (forall_mem_nil P)
  | cons x xs ih =>
    rw [forall_mem_cons] at each
    rw [mapM_cons, mapM_cons]
    exact each.1.bind fun y own => (ih each.2).bind fun ys others => pure (forall_mem_cons.mpr ⟨own, others⟩)

theorem foldlM {f g : β → α → Except Fault β} {b : β} (start : Q b)
    (step : ∀ b x, Q b → x ∈ xs → Agree Q (f b x) (g b x)) : Agree Q (xs.foldlM f b) (xs.foldlM g b) := by
  induction xs generalizing b with
  | nil => exact pure start
  | cons x xs ih =>
    rw [foldlM_cons, foldlM_cons]
    exact (step b x start mem_cons_self).bind fun b own =>
      ih own fun b x own mem => step b x own (mem_cons_of_mem _ mem)

theorem filterM {p q : α → Except Fault Bool} (each : ∀ x ∈ xs, p x = q x) :
    Agree (· ⊆ xs) (xs.filterM p) (xs.filterM q) := by
  have same (xs done : List α) (each : ∀ x ∈ xs, p x = q x) : List.filterAuxM p xs done = List.filterAuxM q xs done := by
    induction xs generalizing done with
    | nil => rfl
    | cons x xs ih =>
      rw [forall_mem_cons] at each
      simp only [List.filterAuxM, each.1, ih _ each.2]
  refine ⟨?_, Gives.filterM p xs⟩
  rw [List.filterM, List.filterM, same xs [] each]

end Agree

variable {name : String}

/-- Two callers agree on values that ignore a name, and what they give ignores it too. -/
def Caller.AgreeBut (name : String) (first second : Caller) : Prop :=
  ∀ f args named, f.Ignores name → (∀ e ∈ args, e.Ignores name) → (∀ entry ∈ named, entry.2.Ignores name) →
    Agree (Ignores name) (first f args named) (second f args named)

/-- Two environments agree but for what they bind to a name, and all else that they bind ignores it. -/
structure Environment.AgreeBut (name : String) (first second : Environment) : Prop where
  constructors : first.constructors = second.constructors
  factories : ∀ entry ∈ first.constructors, entry.2.Ignores name
  globals : ∀ id, id ≠ name → first.globals.lookup id = second.globals.lookup id
  values : ∀ id, id ≠ name → ∀ v, first.globals.lookup id = some v → v.Ignores name

variable {id : String} {args : List Value} {named defaults : List (String × Value)} {v : Value} {e : Expr}

/-! ### Named functions and types -/

section

variable {first second : Caller} (callers : Caller.AgreeBut name first second)
include callers

theorem agree_keyOf (given : ∀ entry ∈ named, entry.2.Ignores name) {e : Value}
    (own : e.Ignores name) : Agree (Ignores name) (keyOf first named e) (keyOf second named e) := by
  unfold keyOf
  split
  · exact .pure own
  · exact .pure own
  · rename_i f _ found
    exact callers _ _ _ (given _ (mem_of_lookup found)) (by simpa using own) (by simp)

variable {es : List Value} {key₁ key₂ : Value → Except Fault Value}

omit callers in
theorem agree_extreme (before : Value → Value → Except Fault Value)
    (keys : ∀ e, e.Ignores name → Agree (Ignores name) (key₁ e) (key₂ e))
    (each : ∀ e ∈ es, e.Ignores name) :
    Agree (∀ e ∈ ·, e.Ignores name) (extreme before key₁ es) (extreme before key₂ es) := by
  cases es with
  | nil => exact .pure (by simp)
  | cons e es =>
    rw [forall_mem_cons] at each
    unfold extreme
    refine (keys e each.1).bind fun k _ => ?_
    refine Agree.bind (P := fun best : Value × Value => best.1.Ignores name) ?_ fun best own => .pure (by simpa using own)
    refine Agree.foldlM each.1 fun best e own mem => ?_
    refine (keys e (each.2 e mem)).bind fun k _ => .after fun v => .after fun holds => ?_
    split
    · exact .pure (each.2 e mem)
    · exact .pure own

omit callers in
theorem gives_insertSorted {x : Value × Value} (own : x.1.Ignores name) {done : List (Value × Value)}
    (each : ∀ y ∈ done, y.1.Ignores name) : Gives (∀ y ∈ ·, y.1.Ignores name) (insertSorted x done) := by
  induction done with
  | nil => exact forall_mem_singleton.mpr own
  | cons y ys ih =>
    rw [forall_mem_cons] at each
    simp only [insertSorted, gives_bind]
    intro v _ holds _
    split
    · exact forall_mem_cons.mpr ⟨own, forall_mem_cons.mpr each⟩
    · exact (ih each.2).bind fun sorted others => forall_mem_cons.mpr ⟨each.1, others⟩

omit callers in
theorem agree_sortValues (keys : ∀ e, e.Ignores name → Agree (Ignores name) (key₁ e) (key₂ e))
    (each : ∀ e ∈ es, e.Ignores name) :
    Agree (∀ e ∈ ·, e.Ignores name) (sortValues key₁ es) (sortValues key₂ es) := by
  refine Agree.bind (P := fun sorted : List (Value × Value) => ∀ y ∈ sorted, y.1.Ignores name) ?_ fun sorted own =>
    .pure (forall_mem_map.mpr own)
  refine Agree.foldlM (by simp) fun done e own mem => ?_
  exact (keys e (each e mem)).bind fun k _ => .of_gives (gives_insertSorted (each e mem) own)

theorem agree_extremeOf (op : CompareOp) (each : ∀ e ∈ args, e.Ignores name)
    (given : ∀ entry ∈ named, entry.2.Ignores name) :
    Agree (Ignores name) (extremeOf first op args named) (extremeOf second op args named) := by
  have chosen {es : List Value} (each : ∀ e ∈ es, e.Ignores name) :=
    agree_extreme (compareWith · · op) (fun e own => agree_keyOf callers given own) each
  unfold extremeOf
  refine .guarded ?_
  dsimp only
  split
  on_goal 2 => exact .throw _
  on_goal 1 => refine Agree.bind (.of_gives (ignores_items (forall_mem_singleton.mp each))) fun es own => ?_
  on_goal 2 => refine Agree.bind (P := fun es : List Value => ∀ e ∈ es, e.Ignores name) (.pure each) fun es own => ?_
  all_goals
    refine (chosen own).bind fun best clean => ?_
    split
    · exact .pure (clean _ rfl)
    · exact .pure (given _ (mem_of_lookup ‹_›))
    · exact .throw _

end

theorem agree_construct {env₁ env₂ : Environment} (envs : env₁.AgreeBut name env₂) {first second : Caller}
    (callers : Caller.AgreeBut name first second) {type components : Value} (kind : type.Ignores name)
    (own : components.Ignores name) :
    Agree (Ignores name) (env₁.construct first type components) (env₂.construct second type components) := by
  have lists : ∀ e ∈ [components], e.Ignores name := by simpa using own
  unfold Environment.construct Environment.constructor?
  rw [← envs.constructors]
  split
  · refine Agree.bind (P := fun factory : Option Value => ∀ f ∈ factory, f.Ignores name) (.of_gives ?_) fun factory clean => ?_
    · refine (Gives.filterM _ _).bind fun found within => ?_
      split
      · simpa using envs.factories _ (within mem_cons_self)
      · simp
    · split
      · exact callers _ _ _ kind lists (by simp)
      · exact callers _ _ _ kind lists (by simp)
      · exact callers _ _ _ (clean _ rfl) lists (by simp)
  · exact .throw _

theorem agree_routine {env₁ env₂ : Environment} (envs : env₁.AgreeBut name env₂) {first second : Caller}
    (callers : Caller.AgreeBut name first second) (r : Routine) (each : ∀ e ∈ args, e.Ignores name)
    (given : ∀ entry ∈ named, entry.2.Ignores name) :
    Agree (Ignores name) (r.call env₁ first args named) (r.call env₂ second args named) := by
  unfold Routine.call
  split
  all_goals refine .guarded ?_
  all_goals try simp only [forall_mem_cons, not_mem_nil] at each
  · exact .of_gives (ignores_scalarComponent each.1)
  · exact .of_gives (ignores_component each.1 each.2.1)
  · exact agree_construct envs callers each.1 each.2.1
  · exact .pure (by simpa using each)
  · exact .of_gives ((ignores_items each.1).bind fun es own => by simpa using own)
  · refine .of_gives ((ignores_items each.1).bind fun es own => ?_)
    refine Meets.bind (Meets.mapM fun e mem => ignores_operate .mul (by simp) (own e mem)) ?_
    exact fun es own => by simpa using own
  · exact .of_gives (ignores_operate _ each.1 (by simp))
  · exact .of_gives (ignores_stackComponents _)
  · exact .of_gives (ignores_size _)
  · exact .of_gives (by simp)
  · exact .of_gives (by simp)
  · exact .of_gives (by simp)
  · split
    · exact .of_gives (ignores_characterOf _)
    · exact .throw _
  · exact .of_gives (ignores_divMod each.1 each.2.1)
  · exact .of_gives (ignores_attributeOf each.1 _)
  · exact .of_gives (ignores_attributeOr each.1 _ each.2.2.1)
  · exact .of_gives (by simp)
  · refine .after fun h => .pure ?_
    cases h <;> simp
  · exact .of_gives (by simp)
  · exact .of_gives (by simp)
  · exact agree_extremeOf callers .gt each given
  · exact agree_extremeOf callers .lt each given
  · split
    · exact .of_gives (by simp)
    · exact .throw _
  · exact .of_gives (ignores_operate _ each.1 each.2.1)
  · exact .of_gives ((ignores_operate _ each.1 each.2.1).bind fun _ own => ignores_operate _ own each.2.2.1)
  · exact .of_gives (by simp)
  · exact .of_gives (ignores_rounded _)
  · exact .of_gives (ignores_rounded _)
  · split
    · exact .of_gives (ignores_roundedTo _ _)
    · exact .throw _
  · have sorted {es : List Value} (own : ∀ e ∈ es, e.Ignores name) :=
      agree_sortValues (fun e own => agree_keyOf callers given own) own
    refine Agree.bind (.of_gives (ignores_items each.1)) fun es own => ?_
    split
    · exact (sorted own).bind fun es own => .pure (by simpa using own)
    · refine .after fun reverse => ?_
      split
      · exact (sorted (by simpa using own)).bind fun es own => .pure (by simpa using own)
      · exact (sorted own).bind fun es own => .pure (by simpa using own)
  · exact .of_gives ((ignores_items each.1).bind fun es own => ignores_sumFrom (by simp) own)
  · split
    · exact .throw _
    · exact .of_gives ((ignores_items each.1).bind fun es own => ignores_sumFrom each.2.1 own)
  · exact .throw _

theorem ignores_dict_of_named (given : ∀ entry ∈ named, entry.2.Ignores name) :
    (Value.dict (named.map fun (k, _) => .str k) (named.map (·.2))).Ignores name := by
  simp only [Ignores, ignoreAll_iff, forall_mem_map]
  exact ⟨fun _ _ => trivial, given⟩

theorem agree_kind {first second : Caller} (callers : Caller.AgreeBut name first second) (k : Kind)
    (each : ∀ e ∈ args, e.Ignores name)
    (given : ∀ entry ∈ named, entry.2.Ignores name) :
    Agree (Ignores name) (k.call first args named) (k.call second args named) := by
  unfold Kind.call
  split
  all_goals try simp only [forall_mem_cons, not_mem_nil] at each
  · have all : ∀ e ∈ args ++ (["grade", "dim", "components"].drop args.length).filterMap (fun id => named.lookup id),
        e.Ignores name := by
      refine forall_mem_append.mpr ⟨each, fun e mem => ?_⟩
      obtain ⟨id, -, found⟩ := mem_filterMap.mp mem
      exact given _ (mem_of_lookup found)
    dsimp only
    split
    · rename_i listed
      split
      · exact .of_gives (ignores_buildKVector _ _ (all _ (listed ▸ by simp)))
      · exact .throw _
    · exact .throw _
  · exact .pure (ignores_dict_of_named given)
  · exact .pure each.1
  · refine .of_gives ((ignores_items each.1).bind fun es own => ?_)
    refine Meets.bind (P := fun entries : List (Value × Value) =>
      ∀ entry ∈ entries, entry.1.Ignores name ∧ entry.2.Ignores name) (Meets.mapM fun e mem => ?_) fun entries own =>
        ignores_mappingOf own
    refine (ignores_items (own e mem)).bind fun parts clean => ?_
    split
    · simpa using clean
    · exact gives_throw
  · exact .pure (by simp)
  · exact .of_gives ((ignores_items each.1).bind fun es own => by simpa using own)
  · exact .pure (by simp)
  · exact .of_gives ((ignores_items each.1).bind fun es own => by simpa using own)
  · exact .pure (by simp)
  · exact .of_gives ((ignores_items each.1).bind fun es own => ignores_setOf own false)
  · exact .pure (by simp)
  · exact .of_gives (ignores_toWhole _)
  · exact .pure (by simp)
  · exact .of_gives (ignores_toReal _)
  · exact .pure (by simp)
  · exact .of_gives (by simp [ofComplex])
  · exact .of_gives (ignores_complexOf _ _)
  · exact .pure (by simp)
  · exact .of_gives (by simp)
  · exact .pure (by simp)
  · exact .pure (by simp)
  · exact .of_gives (ignores_rangeOf _)
  · exact .pure (by simpa using each)
  · exact .pure (by simpa using each)
  · exact .pure (by simpa using each)
  · refine .of_gives ((ignores_items each.1).bind fun es own => ignoreAll_iff.mpr (forall_mem_map.mpr ?_))
    intro entry mem
    simpa using own _ (fst_mem_of_mem_zipIdx mem)
  · refine .of_gives ((ignores_rowsOf each).bind fun rows own => ignoreAll_iff.mpr (forall_mem_map.mpr ?_))
    exact fun row mem => ignoreAll_iff.mpr (own row mem)
  · refine Agree.bind (.of_gives (ignores_rowsOf (forall_mem_cons.mpr each.2))) fun rows own => ?_
    refine Agree.bind (Agree.mapM fun row mem => callers _ _ _ each.1 (own row mem) (by simp)) fun es own => ?_
    exact .pure (ignoreAll_iff.mpr own)
  · refine Agree.bind (.of_gives (ignores_items each.2.1)) fun es own => ?_
    refine Agree.bind (Agree.filterM fun e mem => ?_) fun kept within => .pure (ignoreAll_iff.mpr fun e mem =>
      own e (within mem))
    split
    · rfl
    · rw [(callers _ [e] [] each.1 (by simpa using own e mem) (by simp)).1]
  · split
    · exact .throw _
    · exact .throw _
    · exact .of_gives ((ignores_items each.1).bind fun es own => by simpa using own)
  · exact .pure (by simp)
  · exact .pure (by simp)
  · split
    all_goals exact .of_gives (by simp)
  · exact .throw _

/-! ### Calls -/

def Scope.Ignores (name : String) (scope : Scope) : Prop := ∀ entry ∈ scope, ∀ v ∈ entry.2, v.Ignores name

theorem gives_remaining (preset : ∀ entry ∈ defaults, entry.2.Ignores name)
    (given : ∀ entry ∈ named, entry.2.Ignores name) (id : String) :
    Gives (fun entry => entry.2.Ignores name) (remaining defaults named id) := by
  unfold remaining
  split
  · exact given _ (mem_of_lookup ‹_›)
  · exact preset _ (mem_of_lookup ‹_›)
  · exact gives_throw

theorem gives_bindArguments (parameters : Expr)
    (preset : ∀ entry ∈ defaults, entry.2.Ignores name) (each : ∀ e ∈ args, e.Ignores name)
    (given : ∀ entry ∈ named, entry.2.Ignores name) :
    Gives (∀ entry ∈ ·, entry.2.Ignores name) (bindArguments parameters defaults args named) := by
  unfold bindArguments
  split
  · dsimp only
    split
    · exact gives_throw
    have taken (p : String × Value → Bool) : ∀ entry ∈ named.filter p, entry.2.Ignores name :=
      fun entry mem => given entry (mem_of_mem_filter mem)
    refine Meets.bind (Meets.mapM fun id _ => gives_remaining preset (taken _) id) fun later laterOwn => ?_
    refine Meets.bind (Meets.mapM fun id _ => gives_remaining preset given id) fun only onlyOwn => ?_
    have starred (n : Nat) : (Value.tuple (args.drop n)).Ignores name :=
      ignoreAll_iff.mpr fun e mem => each e (mem_of_mem_drop mem)
    repeat' split
    all_goals first
      | exact gives_throw
      | simp only [pure_bind, gives_pure, forall_mem_append]
        refine ⟨⟨⟨⟨fun entry mem => each _ (of_mem_zip mem).2, laterOwn⟩, ?_⟩, onlyOwn⟩, ?_⟩
    all_goals first
      | exact forall_mem_nil _
      | exact forall_mem_singleton.mpr (starred _)
      | exact forall_mem_singleton.mpr (ignores_dict_of_named (taken _))
  · exact gives_throw

/-! ### Names and targets -/

theorem ignores_builtin (found : builtin? id = some v) : v.Ignores name := by
  unfold builtin? at found
  split at found
  · cases found
    simp
  · split at found
    · cases found
      simp
    · cases found

theorem agree_lookup {env₁ env₂ : Environment} (envs : env₁.AgreeBut name env₂) {scope : Scope}
    (clean : scope.Ignores name) (other : id ≠ name) :
    Agree (Ignores name) (env₁.lookup scope id) (env₂.lookup scope id) := by
  unfold Environment.lookup
  rw [← envs.globals id other]
  split
  · rename_i found
    exact .pure (clean _ (mem_of_lookup found) _ rfl)
  · exact .throw _
  · split
    · rename_i found
      exact .pure (envs.values id other _ found)
    · split
      · rename_i found
        exact .pure (ignores_builtin found)
      · exact .throw _

theorem gives_literal (l : Literal) : Gives (Ignores name) l.value := by
  unfold Literal.value
  split
  all_goals simp

theorem gives_assignTo {scope : Scope} (clean : scope.Ignores name) (own : v.Ignores name) (target : Expr) :
    Gives (Scope.Ignores name) (assignTo scope v target) := by
  induction scope, v, target using assignTo.induct
    (motive_2 := fun scope vs targets => scope.Ignores name → (∀ v ∈ vs, v.Ignores name) →
      Gives (Scope.Ignores name) (assignAll scope vs targets)) with
  | case1 scope v id =>
    rw [assignTo, gives_pure]
    exact forall_mem_cons.mpr ⟨by simpa using own, clean⟩
  | case2 scope v es ih | case3 scope v es ih =>
    rw [assignTo]
    exact (ignores_items own).bind fun vs each => ih vs clean each
  | case4 target scope v notName notTuple notList =>
    unfold assignTo
    split
    · exact absurd rfl (notName _)
    · exact absurd rfl (notTuple _)
    · exact absurd rfl (notList _)
    · exact gives_throw
  | case5 scope clean _ => exact clean
  | case6 scope v vs target targets ihFirst ihRest clean each =>
    rw [forall_mem_cons] at each
    rw [assignAll]
    exact (ihFirst clean each.1).bind fun scope clean => ihRest scope clean each.2
  | case7 targets scope vs notNil notCons =>
    unfold assignAll
    split
    · exact absurd rfl (notNil rfl)
    · exact absurd rfl (notCons _ _ _ _ rfl)
    · exact gives_throw

/-! ### Expressions -/

theorem Expr.IsPart.trans {a b : Expr} (inner : a.IsPart b) (outer : b.IsPart e) : a.IsPart e := by
  induction outer with
  | self => exact inner
  | child above _ ih => exact .child above ih

theorem Expr.IsPart.height_le {p : Expr} (part : p.IsPart e) : p.height ≤ e.height := by
  induction part with
  | self => exact Nat.le_refl _
  | child above _ ih => exact Nat.le_trans ih (Nat.le_of_lt (height_lt_of_mem_children above))

section

variable (name) (env₁ env₂ : Environment) (first second : Caller)

/-- An expression has one outcome on both sides, in every scope that ignores the name. -/
def Settled (e : Expr) : Prop :=
  ∀ scope : Scope, scope.Ignores name →
    Agree (Ignores name) (evaluate env₁ first scope e) (evaluate env₂ second scope e)

def SettledBelow (e : Expr) : Prop := ∀ p, p.IsPart e → Settled name env₁ env₂ first second p

end

section

variable {env₁ env₂ : Environment} {first second : Caller} {scope : Scope}

theorem SettledBelow.self (below : SettledBelow name env₁ env₂ first second e) :
    Settled name env₁ env₂ first second e := below e .self

theorem SettledBelow.child {c : Expr} (below : SettledBelow name env₁ env₂ first second e) (child : c ∈ e.children) :
    SettledBelow name env₁ env₂ first second c := fun p part => below p (part.trans (.child child .self))

theorem agree_evaluateOption {o : Option Expr} (each : ∀ e ∈ o, SettledBelow name env₁ env₂ first second e)
    (clean : scope.Ignores name) :
    Agree (Ignores name) (evaluateOption env₁ first scope o) (evaluateOption env₂ second scope o) := by
  cases o with
  | none => exact .pure (by simp)
  | some e => exact (each e rfl).self scope clean

variable {es : List Expr} {last : Value}

theorem agree_evaluateAll (each : ∀ e ∈ es, SettledBelow name env₁ env₂ first second e) (clean : scope.Ignores name) :
    Agree (∀ v ∈ ·, v.Ignores name) (evaluateAll env₁ first scope es) (evaluateAll env₂ second scope es) := by
  induction es with
  | nil => exact .pure (by simp)
  | cons e es ih =>
    rw [forall_mem_cons] at each
    unfold evaluateAll
    split
    · contradiction
    · obtain ⟨rfl, rfl⟩ := List.cons.inj ‹_›
      refine ((each.1.child mem_cons_self).self scope clean).bind fun v own => ?_
      refine Agree.bind (.of_gives (ignores_items own)) fun vs own => (ih each.2).bind fun rest others => ?_
      exact .pure (forall_mem_append.mpr ⟨own, others⟩)
    · obtain ⟨rfl, rfl⟩ := List.cons.inj ‹_›
      refine (each.1.self scope clean).bind fun v own => (ih each.2).bind fun rest others => ?_
      exact .pure (forall_mem_cons.mpr ⟨own, others⟩)

theorem gives_namedOf {keys values : List Value} (own : (Value.dict keys values).Ignores name) :
    Gives (∀ entry ∈ ·, entry.2.Ignores name) ((keys.zip values).mapM fun entry => match entry with
      | (.str id, v) => (return (id, v) : Except Fault (String × Value))
      | _ => throw .typeError) := by
  refine Meets.mapM fun entry mem => ?_
  have clean := ignoreAll_iff.mp own.2 _ (of_mem_zip mem).2
  split
  · exact clean
  · exact gives_throw

theorem agree_evaluateKeywords (each : ∀ e ∈ es, SettledBelow name env₁ env₂ first second e)
    (clean : scope.Ignores name) :
    Agree (∀ entry ∈ ·, entry.2.Ignores name) (evaluateKeywords env₁ first scope es)
      (evaluateKeywords env₂ second scope es) := by
  induction es with
  | nil => exact .pure (by simp)
  | cons e es ih =>
    rw [forall_mem_cons] at each
    unfold evaluateKeywords
    split
    · contradiction
    · obtain ⟨rfl, rfl⟩ := List.cons.inj ‹_›
      refine ((each.1.child mem_cons_self).self scope clean).bind fun v own => (ih each.2).bind fun rest others => ?_
      exact .pure (forall_mem_cons.mpr ⟨own, others⟩)
    · obtain ⟨rfl, rfl⟩ := List.cons.inj ‹_›
      refine ((each.1.child mem_cons_self).self scope clean).bind fun v own => ?_
      split
      · refine Agree.bind (.of_gives (gives_namedOf own)) fun named given => (ih each.2).bind fun rest others => ?_
        exact .pure (forall_mem_append.mpr ⟨given, others⟩)
      · exact .throw _
    · exact .throw _

theorem agree_evaluateUntil (each : ∀ e ∈ es, SettledBelow name env₁ env₂ first second e)
    (clean : scope.Ignores name) (stop : Bool) (own : last.Ignores name) :
    Agree (Ignores name) (evaluateUntil env₁ first scope stop last es) (evaluateUntil env₂ second scope stop last es) := by
  induction es generalizing last with
  | nil => exact .pure own
  | cons e es ih =>
    rw [forall_mem_cons] at each
    unfold evaluateUntil
    refine (each.1.self scope clean).bind fun v own => ?_
    split
    · exact .pure own
    · refine .after fun given => ?_
      split
      · exact .pure own
      · exact ih each.2 own

theorem agree_evaluateChain {ops : List CompareOp}
    (each : ∀ e ∈ es, SettledBelow name env₁ env₂ first second e) (clean : scope.Ignores name)
    {left : Value} (own : last.Ignores name) :
    Agree (Ignores name) (evaluateChain env₁ first scope last left ops es)
      (evaluateChain env₂ second scope last left ops es) := by
  induction es generalizing last left ops with
  | nil =>
    unfold evaluateChain
    split
    · contradiction
    · exact .pure own
  | cons e es ih =>
    rw [forall_mem_cons] at each
    unfold evaluateChain
    split
    · obtain ⟨rfl, rfl⟩ := List.cons.inj ‹_›
      refine (each.1.self scope clean).bind fun right _ => ?_
      refine Agree.bind (P := Ignores name) (.of_gives (ignores_compareWith _ _ _)) fun holds own => ?_
      split
      · exact .pure own
      · refine .after fun truth => ?_
        split
        · exact ih each.2 own
        · exact .pure own
    · exact .pure own

theorem agree_evaluateEntries (each : ∀ key value, .entry key value ∈ es →
      (∀ k ∈ key, SettledBelow name env₁ env₂ first second k) ∧ SettledBelow name env₁ env₂ first second value)
    (clean : scope.Ignores name) :
    Agree (∀ entry ∈ ·, entry.1.Ignores name ∧ entry.2.Ignores name) (evaluateEntries env₁ first scope es)
      (evaluateEntries env₂ second scope es) := by
  induction es with
  | nil => exact .pure (by simp)
  | cons e es ih =>
    have rest := ih fun key value mem => each key value (mem_cons_of_mem _ mem)
    unfold evaluateEntries
    split
    · contradiction
    · obtain ⟨rfl, rfl⟩ := List.cons.inj ‹_›
      have parts := each _ _ mem_cons_self
      refine ((parts.1 _ rfl).self scope clean).bind fun k keyOwn => (parts.2.self scope clean).bind fun v own => ?_
      exact rest.bind fun entries others => .pure (forall_mem_cons.mpr ⟨⟨keyOwn, own⟩, others⟩)
    · obtain ⟨rfl, rfl⟩ := List.cons.inj ‹_›
      refine ((each _ _ mem_cons_self).2.self scope clean).bind fun v own => ?_
      split
      · refine rest.bind fun entries others => .pure (forall_mem_append.mpr ⟨fun entry mem => ?_, others⟩)
        have parts := of_mem_zip mem
        exact ⟨ignoreAll_iff.mp own.1 _ parts.1, ignoreAll_iff.mp own.2 _ parts.2⟩
      · exact .throw _
    · exact .throw _

theorem agree_evaluateConditions (each : ∀ e ∈ es, SettledBelow name env₁ env₂ first second e)
    (clean : scope.Ignores name) :
    Agree (fun _ => True) (evaluateConditions env₁ first scope es) (evaluateConditions env₂ second scope es) := by
  induction es with
  | nil => exact .pure trivial
  | cons e es ih =>
    rw [forall_mem_cons] at each
    unfold evaluateConditions
    refine (each.1.self scope clean).bind fun v _ => .after fun holds => ?_
    split
    · exact ih each.2
    · exact .pure trivial

theorem agree_evaluateClauses {clauses : List Expr} (each : ∀ e ∈ clauses, SettledBelow name env₁ env₂ first second e)
    {body₁ body₂ : Scope → Except Fault (List (Value × Value))}
    (bodies : ∀ scope : Scope, scope.Ignores name →
      Agree (∀ entry ∈ ·, entry.1.Ignores name ∧ entry.2.Ignores name) (body₁ scope) (body₂ scope))
    (clean : scope.Ignores name) :
    Agree (∀ entry ∈ ·, entry.1.Ignores name ∧ entry.2.Ignores name) (evaluateClauses env₁ first clauses scope body₁)
      (evaluateClauses env₂ second clauses scope body₂) := by
  induction clauses generalizing scope with
  | nil => exact bodies scope clean
  | cons e clauses ih =>
    rw [forall_mem_cons] at each
    cases e with
    | clause async target source conditions =>
      have settled := each.1.child (mem_cons_of_mem _ mem_cons_self)
      rw [evaluateClauses, evaluateClauses]
      refine (settled.self _ clean).bind fun v own => ?_
      refine Agree.bind (.of_gives (ignores_items own)) fun vs own => ?_
      refine Agree.bind (Agree.mapM (P := fun entries : List (Value × Value) =>
        ∀ entry ∈ entries, entry.1.Ignores name ∧ entry.2.Ignores name) fun v mem => ?_) fun results own => .pure ?_
      · refine Agree.bind (.of_gives (gives_assignTo clean (own v mem) _)) fun inner clean => ?_
        refine (agree_evaluateConditions (fun c mem => each.1.child ?_) clean).bind fun holds _ => ?_
        · exact mem_cons_of_mem _ (mem_cons_of_mem _ mem)
        split
        · exact ih each.2 clean
        · exact .pure (by simp)
      · intro entry mem
        obtain ⟨entries, listed, mem⟩ := mem_flatten.mp mem
        exact own entries listed entry mem
    | _ => exact .throw _

theorem agree_evaluateParts (each : ∀ e ∈ es, SettledBelow name env₁ env₂ first second e) (clean : scope.Ignores name) :
    Agree (fun _ => True) (evaluateParts env₁ first scope es) (evaluateParts env₂ second scope es) := by
  induction es with
  | nil => exact .pure trivial
  | cons e es ih =>
    rw [forall_mem_cons] at each
    unfold evaluateParts
    split
    · contradiction
    · obtain ⟨rfl, rfl⟩ := List.cons.inj ‹_›
      exact (ih each.2).bind fun pieces _ => .pure trivial
    · obtain ⟨rfl, rfl⟩ := List.cons.inj ‹_›
      refine ((each.1.child mem_cons_self).self scope clean).bind fun v _ => ?_
      exact (ih each.2).bind fun pieces _ => .pure trivial
    · exact .throw _

theorem agree_evaluateParams
    (each : ∀ id hint default, .param id hint (some default) ∈ es → SettledBelow name env₁ env₂ first second default)
    (clean : scope.Ignores name) :
    Agree (∀ entry ∈ ·, entry.2.Ignores name) (evaluateParams env₁ first scope es) (evaluateParams env₂ second scope es) := by
  induction es with
  | nil => exact .pure (by simp)
  | cons e es ih =>
    have rest := ih fun id hint default mem => each id hint default (mem_cons_of_mem _ mem)
    unfold evaluateParams
    split
    · contradiction
    · obtain ⟨rfl, rfl⟩ := List.cons.inj ‹_›
      refine ((each _ _ _ mem_cons_self).self scope clean).bind fun v own => ?_
      exact rest.bind fun entries others => .pure (forall_mem_cons.mpr ⟨own, others⟩)
    · obtain ⟨rfl, rfl⟩ := List.cons.inj ‹_›
      exact rest

theorem agree_evaluateDefaults {parameters : Expr} (below : SettledBelow name env₁ env₂ first second parameters)
    (clean : scope.Ignores name) :
    Agree (fun defaults => ∀ v ∈ defaults.2, v.Ignores name) (evaluateDefaults env₁ first scope parameters)
      (evaluateDefaults env₂ second scope parameters) := by
  unfold evaluateDefaults
  split
  · have among {es : List Expr} (within : ∀ c ∈ es.filterMap Expr.default?, SettledBelow name env₁ env₂ first second c) :
        Agree (∀ entry ∈ ·, entry.2.Ignores name) (evaluateParams env₁ first scope es)
          (evaluateParams env₂ second scope es) :=
      agree_evaluateParams (fun _ _ default mem => within default (mem_filterMap.mpr ⟨_, mem, rfl⟩)) clean
    refine (among fun c mem => below.child ?_).bind fun a first => ?_
    · simp only [Expr.children, mem_append, filterMap_append]
      tauto
    refine (among fun c mem => below.child ?_).bind fun b second => ?_
    · simp only [Expr.children, mem_append, filterMap_append]
      tauto
    refine (among fun c mem => below.child ?_).bind fun c third => .pure (forall_mem_map.mpr ?_)
    · simp only [Expr.children, mem_append, filterMap_append]
      tauto
    exact forall_mem_append.mpr ⟨forall_mem_append.mpr ⟨first, second⟩, third⟩
  · exact .throw _

theorem settled_of_children (envs : env₁.AgreeBut name env₂) (callers : Caller.AgreeBut name first second)
    (unread : ¬e.Mentions name) (below : ∀ c ∈ e.children, SettledBelow name env₁ env₂ first second c) :
    Settled name env₁ env₂ first second e := by
  intro scope clean
  have part (c : Expr) (child : c ∈ e.children) := (below c child).self scope clean
  cases e with
  | literal l => exact .of_gives (gives_literal l)
  | name id =>
    refine agree_lookup envs clean ?_
    rintro rfl
    exact unread .self
  | «attribute» value field =>
    rw [evaluate, evaluate]
    exact (part value (by simp [Expr.children])).bind fun v own =>
      .of_gives (ignores_attributeOf own field)
  | subscript value index =>
    rw [evaluate, evaluate]
    exact (part value (by simp [Expr.children])).bind fun v own =>
      (part index (by simp [Expr.children])).bind fun i place => .of_gives (ignores_item own place)
  | slice lower upper step =>
    rw [evaluate, evaluate]
    refine (agree_evaluateOption (fun e given => below e ?_) clean).bind fun a first =>
      (agree_evaluateOption (fun e given => below e ?_) clean).bind fun b second =>
      (agree_evaluateOption (fun e given => below e ?_) clean).bind fun c third => .pure ⟨first, second, third⟩
    all_goals simp_all [Expr.children]
  | call function args keywords =>
    rw [evaluate, evaluate]
    refine (part function (by simp [Expr.children])).bind fun f own =>
      (agree_evaluateAll (fun e mem => below e ?_) clean).bind fun args each =>
      (agree_evaluateKeywords (fun e mem => below e ?_) clean).bind fun named given => callers f args named own each given
    all_goals simp [Expr.children, mem]
  | unary op operand =>
    rw [evaluate, evaluate]
    exact (part operand (by simp [Expr.children])).bind fun v own => .of_gives (ignores_operateUnary op v)
  | binary op left right =>
    rw [evaluate, evaluate]
    exact (part left (by simp [Expr.children])).bind fun a own =>
      (part right (by simp [Expr.children])).bind fun b own' => .of_gives (ignores_operate op own own')
  | conjunction values =>
    rw [evaluate, evaluate]
    exact agree_evaluateUntil below clean false (by simp)
  | disjunction values =>
    rw [evaluate, evaluate]
    exact agree_evaluateUntil below clean true (by simp)
  | comparison left ops rest =>
    rw [evaluate, evaluate]
    refine (part left (by simp [Expr.children])).bind fun v _ => ?_
    exact agree_evaluateChain (fun e mem => below e (mem_cons_of_mem _ mem)) clean (by simp)
  | conditional test body otherwise =>
    rw [evaluate, evaluate]
    refine (part test (by simp [Expr.children])).bind fun v _ => .after fun holds => ?_
    split
    · exact part body (by simp [Expr.children])
    · exact part otherwise (by simp [Expr.children])
  | lambda parameters body =>
    rw [evaluate, evaluate]
    refine (agree_evaluateDefaults (below parameters (by simp [Expr.children])) clean).bind fun defaults own => .pure ?_
    refine ⟨?_, ignoreAll_iff.mpr own, ignoreAll_iff.mpr (forall_mem_map.mpr fun entry mem => ?_)⟩
    · intro s listed e mem
      obtain rfl := mem_singleton.mp listed
      obtain rfl := mem_singleton.mp mem
      exact fun mention => unread (.child (by simp [Expr.children]) mention)
    · obtain ⟨⟨id, bound⟩, listed, given⟩ := mem_filterMap.mp mem
      obtain ⟨v, rfl, rfl⟩ := Option.map_eq_some_iff.mp given
      exact clean _ listed v rfl
  | tuple es | list es =>
    rw [evaluate, evaluate]
    exact (agree_evaluateAll below clean).bind fun vs own => .pure (ignoreAll_iff.mpr own)
  | set es =>
    rw [evaluate, evaluate]
    exact (agree_evaluateAll below clean).bind fun vs own => .of_gives (ignores_setOf own _)
  | mapping entries =>
    rw [evaluate, evaluate]
    refine (agree_evaluateEntries (fun key value mem => ⟨fun k given => below k ?_, below value ?_⟩) clean).bind
      fun entries own => .of_gives (ignores_mappingOf own)
    · refine mem_append_left _ (mem_filterMap.mpr ⟨_, mem, given⟩)
    · exact mem_append_right _ (mem_filterMap.mpr ⟨_, mem, rfl⟩)
  | comprehension brackets element value clauses =>
    rw [evaluate, evaluate]
    refine (agree_evaluateClauses (fun e mem => below e (by simp [Expr.children, mem]))
      (fun scope clean => ?_) clean).bind fun pairs own => ?_
    · refine ((below element (by simp [Expr.children])).self scope clean).bind fun e first => ?_
      refine (agree_evaluateOption (fun e given => below e ?_) clean).bind fun v second => .pure ?_
      · simp_all [Expr.children]
      · exact forall_mem_singleton.mpr ⟨first, second⟩
    · have elements : ∀ e ∈ pairs.map (·.1), e.Ignores name := forall_mem_map.mpr fun entry mem => (own entry mem).1
      split
      · exact .of_gives (ignores_mappingOf own)
      · exact .of_gives (ignores_setOf elements false)
      · exact .pure (ignoreAll_iff.mpr elements)
      · exact .pure (ignoreAll_iff.mpr elements)
  | joined parts =>
    rw [evaluate, evaluate]
    exact (agree_evaluateParts below clean).bind fun pieces _ => .pure (by simp)
  | _ => exact .throw _

/-- Code that does not mention a name has one outcome on both sides, and what it gives ignores the name. -/
theorem evaluate_agree (envs : env₁.AgreeBut name env₂) (callers : Caller.AgreeBut name first second) (e : Expr)
    (unread : ¬e.Mentions name) : Settled name env₁ env₂ first second e := by
  induction h : e.height using Nat.strongRecOn generalizing e with
  | ind n ih =>
    subst h
    refine settled_of_children envs callers unread fun c child p part => ih p.height ?_ p (fun mention => ?_) rfl
    · exact Nat.lt_of_le_of_lt part.height_le (Expr.height_lt_of_mem_children child)
    · exact unread (mention.trans (part.trans (.child child .self)))

/-! ### Functions -/

theorem agree_run (envs : env₁.AgreeBut name env₂) (callers : Caller.AgreeBut name first second) {body : List Stmt}
    (unread : ∀ s ∈ body, s.Avoids name) (clean : scope.Ignores name) :
    Agree (Ignores name) (run env₁ first scope body) (run env₂ second scope body) := by
  induction body generalizing scope with
  | nil => exact .pure (by simp)
  | cons s rest ih =>
    rw [forall_mem_cons] at unread
    unfold run
    split
    · contradiction
    · obtain ⟨rfl, rfl⟩ := List.cons.inj ‹_›
      refine (evaluate_agree envs callers _ (unread.1 _ (by simp [Stmt.expressions])) _ clean).bind fun v own => ?_
      exact Agree.bind (.of_gives (gives_assignTo clean own _)) fun scope clean => ih unread.2 clean
    · obtain ⟨rfl, rfl⟩ := List.cons.inj ‹_›
      refine (evaluate_agree envs callers _ (unread.1 _ (by simp [Stmt.expressions])) _ clean).bind fun v _ => ?_
      exact ih unread.2 clean
    · obtain ⟨rfl, rfl⟩ := List.cons.inj ‹_›
      exact evaluate_agree envs callers _ (unread.1 _ (by simp [Stmt.expressions])) _ clean
    · exact .pure (by simp)
    · exact .throw _

theorem agree_apply (envs : env₁.AgreeBut name env₂) (callers : Caller.AgreeBut name first second) :
    Caller.AgreeBut name (apply env₁ first) (apply env₂ second) := by
  intro f args named own each given
  unfold apply
  split
  · exact agree_routine envs callers _ each given
  · exact agree_kind callers _ each given
  · split
    · exact .of_gives (ignores_buildKVector _ _ (by simpa using each))
    · exact .of_gives (ignores_buildKVector _ _ (by simpa using given))
    · exact .throw _
  · split
    · rw [Ignores] at own
      exact .of_gives (ignores_callMethod own _ each)
    · exact .throw _
  · obtain ⟨unread, preset, taken⟩ := own
    rw [ignoreAll_iff] at preset taken
    refine Agree.bind (.of_gives (gives_bindArguments _ (fun entry mem => preset _ (of_mem_zip mem).2)
      each given)) fun bound own => agree_run envs callers unread ?_
    refine forall_mem_append.mpr ⟨forall_mem_map.mpr fun entry mem => ?_, ?_⟩
    · rcases mem_append.mp mem with mem | mem
      · simpa using own entry mem
      · simpa using taken _ (of_mem_zip mem).2
    · exact forall_mem_map.mpr fun id _ => by simp
  · exact .throw _

theorem agree_callWithin (envs : env₁.AgreeBut name env₂) (depth : Nat) :
    Caller.AgreeBut name (callWithin env₁ depth) (callWithin env₂ depth) := by
  induction depth with
  | zero => exact fun _ _ _ _ _ _ => .throw _
  | succ depth ih => exact agree_apply envs ih

theorem Environment.evaluate_agree (envs : env₁.AgreeBut name env₂) (unread : ¬e.Mentions name) :
    Agree (Ignores name) (env₁.evaluate e) (env₂.evaluate e) :=
  Host.evaluate_agree envs (agree_callWithin envs callDepth) e unread [] (by simp [Scope.Ignores])

end

end Bladewright.Host
