import Bladewright.Proofs.Code.Inputs
import Bladewright.Proofs.Host.Names
import Bladewright.Proofs.Host.Parts

/-!
The locals of generated functions. Each host input that is not a plain name is evaluated once, in order of the
sources, into a local of its own (`generateFunction_ok`).
-/
namespace Bladewright

open List Host Outcome Layout Environment

namespace Code

/-! ### Host inputs and their locals -/

theorem localName_injective : Function.Injective localName := by
  intro j k same
  have digits : Nat.toDigits 10 j = Nat.toDigits 10 k := by
    have written : j.repr = k.repr := (String.append_right_inj _).mp same
    rwa [Nat.repr_eq_ofList_toDigits, Nat.repr_eq_ofList_toDigits, String.ofList_inj] at written
  rw [← Nat.ofDigitChars_toDigits (n := j) (by decide : 1 < 10) (by decide), digits,
    Nat.ofDigitChars_toDigits (by decide) (by decide)]

theorem toList_localName (k : Nat) : (localName k).toList = "_input".toList ++ Nat.toDigits 10 k := by
  show ("_input" ++ k.repr).toList = _
  rw [String.toList_append, Nat.repr_eq_ofList_toDigits]
  simp

theorem isWordPart_localName (k : Nat) : ∀ c ∈ (localName k).toList, isWordPart c = true := by
  rw [toList_localName, forall_mem_append]
  refine ⟨all_eq_true.mp (by decide), fun c mem => ?_⟩
  have digit := Nat.isDigit_of_mem_toDigits (by decide) (by decide) mem
  simp [isWordPart, Char.isAlphanum, digit]

theorem isIdentifier_localName (k : Nat) : Text.isIdentifier (localName k) = true := by
  have parts : ∀ c ∈ (localName k).toList, Text.isIdentifierPart c = true := by
    intro c mem
    have part := isWordPart_localName k c mem
    rw [Text.isIdentifierPart, if_pos (toNat_lt_of_isWordPart part)]
    exact part
  have chars : (localName k).toList = '_' :: ("input".toList ++ Nat.toDigits 10 k) := toList_localName k
  rw [chars] at parts
  rw [Text.isIdentifier, chars]
  simp only [Bool.and_eq_true, all_eq_true]
  exact ⟨by decide, fun c mem => parts c (mem_cons_of_mem _ mem)⟩

theorem read_localName (k : Nat) : Expr.read (localName k) = .ok (.name (localName k)) := by
  refine read_word (isWordPart_localName k) (isIdentifier_localName k) fun reserved => ?_
  have starts : ∀ word ∈ Token.keywords, word.toList.head? ≠ some '_' := by decide
  refine starts _ reserved ?_
  rw [toList_localName]
  rfl

theorem mem_hostInputs {components : List Coeff} {source : String} :
    source ∈ hostInputs components ↔ ∃ c ∈ components, source ∈ c.symbols := by
  rw [hostInputs, mem_mergeSort, mem_eraseDups, mem_flatMap]

theorem hostInputs_ascending (components : List Coeff) : (hostInputs components).Pairwise (· < ·) := by
  have sorted : (hostInputs components).Pairwise fun a b => decide (a ≤ b) = true :=
    pairwise_mergeSort (by simpa using fun _ _ _ => String.le_trans) (by simpa using String.le_total) _
  have distinct : (hostInputs components).Nodup := (mergeSort_perm _ _).nodup_iff.mpr (nodup_eraseDups _)
  exact (sorted.and distinct).imp fun both => Std.lt_of_le_of_ne (by simpa using both.1) both.2

def hoistedSources (components : List Coeff) : List String :=
  (hostInputs components).filter fun source => !Text.isIdentifier source

theorem map_fst_hoisted (components : List Coeff) : (hoisted components).map (·.1) = hoistedSources components := by
  rw [hoisted, map_map]
  exact zipIdx_map_fst 0 (hoistedSources components)

theorem map_snd_hoisted (components : List Coeff) :
    (hoisted components).map (·.2) = (List.range (hoistedSources components).length).map localName := by
  rw [hoisted, map_map, range_eq_range', ← zipIdx_map_snd 0 (hoistedSources components), map_map]
  rfl

/-! ### The functions that are generated -/

def parametersOf (args : List String) : Expr := .params [] (args.map fun a => .param a none none) none [] none

def assignment (hoist : String × Expr) : Stmt := .assign [.name hoist.1] hoist.2

theorem mapM_hoistStatement {names : List (String × String)} {statements : List Stmt}
    (done : names.mapM hoistStatement = .ok statements) :
    ∃ hoists, statements = hoists.map assignment ∧ hoists.map (·.1) = names.map (·.2) ∧
      List.Forall₂ (fun source hoist => Expr.read source = .ok hoist.2) (names.map (·.1)) hoists := by
  have each := of_mapM done
  clear done
  induction each with
  | nil => exact ⟨[], rfl, rfl, .nil⟩
  | @cons entry statement _ _ first _ ih =>
    obtain ⟨e, read, made⟩ := of_bind first
    cases made
    obtain ⟨hoists, rfl, locals, sources⟩ := ih
    exact ⟨(entry.2, e) :: hoists, rfl, by rw [map_cons, map_cons, locals],
      .cons (of_mapError read) sources⟩

variable {result : Result} {style : Style}

/-- A generated function assigns the host inputs that are no plain names to the first locals, and returns the code of
the result with the locals in place of these inputs. -/
theorem generateFunction_ok {args : List String} {name : String} {function : Stmt}
    (generated : generateFunction result args name style = .ok function) :
    ∃ l mode type hoists value, ofResult result = .ok l ∧ style.read = .ok (mode, type) ∧
      hoists.map (·.1) = (List.range (hoistedSources l.components).length).map localName ∧
      List.Forall₂ (fun source hoist => Expr.read source = .ok hoist.2) (hoistedSources l.components) hoists ∧
      build (renameInputs l (hoisted l.components)) mode type = .ok value ∧
      function = .function false name (parametersOf args) none [] (hoists.map assignment ++ [.ret (some value)]) := by
  obtain ⟨l, laid, generated⟩ := of_bind generated
  obtain ⟨statements, assigned, generated⟩ := of_bind generated
  obtain ⟨⟨mode, type⟩, read, generated⟩ := of_bind generated
  obtain ⟨value, built, made⟩ := of_bind generated
  cases made
  obtain ⟨hoists, rfl, locals, sources⟩ := mapM_hoistStatement assigned
  rw [map_snd_hoisted] at locals
  rw [map_fst_hoisted] at sources
  exact ⟨l, mode, type, hoists, value, of_mapError laid, read, locals, sources, built, rfl⟩

theorem generateFunction_of_plain {l : Layout} (laid : ofResult result = .ok l)
    (plain : ∀ c ∈ l.components, ∀ name ∈ c.symbols, Text.isIdentifier name = true) {mode : Mode}
    {type : Option Expr} (read : style.read = .ok (mode, type)) {value : Expr} (built : build l mode type = .ok value)
    (args : List String) (name : String) :
    generateFunction result args name style = .ok (.function false name (parametersOf args) none [] [.ret (some value)]) := by
  have named : hoistedSources l.components = [] := by
    refine filter_eq_nil_iff.mpr fun source input => ?_
    obtain ⟨c, listed, mem⟩ := mem_hostInputs.mp input
    simp [plain c listed source mem]
  have plainly : hoisted l.components = [] := by rw [← map_eq_nil_iff, map_fst_hoisted, named]
  rw [generateFunction, laid]
  show (do
    let assignments ← (hoisted l.components).mapM hoistStatement
    let form ← style.read
    let value ← build (renameInputs l (hoisted l.components)) form.1 form.2
    return Stmt.function false name (parametersOf args) .none [] (assignments ++ [Stmt.ret (some value)])) = _
  -- without locals there is nothing to assign and nothing to rename
  rw [plainly, read]
  show (do
    let value ← build l mode type
    return Stmt.function false name (parametersOf args) .none [] [Stmt.ret (some value)]) = _
  rw [built]
  rfl

end Code

namespace Host

/-! ### Assigning locals -/

variable {env : Environment} {call : Caller} {scope scope' : Scope}

def assigned (env : Environment) (call : Caller) (scope : Scope) (hoists : List (String × Expr)) :
    Except Fault Scope :=
  hoists.foldlM (fun scope hoist => return (hoist.1, some (← evaluate env call scope hoist.2)) :: scope) scope

theorem assigned_cons (hoist : String × Expr) (hoists : List (String × Expr)) :
    assigned env call scope (hoist :: hoists) =
      evaluate env call scope hoist.2 >>= fun v => assigned env call ((hoist.1, some v) :: scope) hoists := by
  rw [assigned, foldlM_cons]
  cases evaluate env call scope hoist.2 <;> rfl

theorem run_assignments (hoists : List (String × Expr)) (rest : List Stmt) :
    run env call scope (hoists.map Code.assignment ++ rest) =
      assigned env call scope hoists >>= fun scope' => run env call scope' rest := by
  induction hoists generalizing scope with
  | nil => rfl
  | cons hoist hoists ih =>
    rw [map_cons, cons_append, assigned_cons, Code.assignment, run]
    cases evaluate env call scope hoist.2 with
    | error fault => rfl
    | ok v => exact ih

theorem Environment.lookup_cons_self (id : String) (v : Value) : env.lookup ((id, some v) :: scope) id = .ok v := by
  rw [lookup, lookup_cons, beq_self_eq_true]
  rfl

variable {id : String}

theorem Environment.lookup_cons_of_ne {t : String} (other : id ≠ t) (v : Option Value) :
    env.lookup ((t, v) :: scope) id = env.lookup scope id := by
  rw [lookup, lookup_cons, beq_false_of_ne other]
  rfl

theorem lookup_assigned {hoists : List (String × Expr)} (done : assigned env call scope hoists = .ok scope')
    (other : id ∉ hoists.map (·.1)) : env.lookup scope' id = env.lookup scope id := by
  induction hoists generalizing scope with
  | nil =>
    cases done
    rfl
  | cons hoist hoists ih =>
    rw [assigned_cons] at done
    obtain ⟨v, -, done⟩ := of_bind done
    rw [map_cons, mem_cons, not_or] at other
    rw [ih done other.2, lookup_cons_of_ne other.1]

theorem assigned_append (before after : List (String × Expr)) : assigned env call scope (before ++ after) =
      assigned env call scope before >>= fun middle => assigned env call middle after :=
  foldlM_append

theorem lookup_assigned_local {before after : List (String × Expr)} {hoist : String × Expr}
    (done : assigned env call scope (before ++ hoist :: after) = .ok scope') (once : hoist.1 ∉ after.map (·.1)) :
    ∃ middle v, assigned env call scope before = .ok middle ∧ evaluate env call middle hoist.2 = .ok v ∧
      env.lookup scope' hoist.1 = .ok v := by
  rw [assigned_append] at done
  obtain ⟨middle, first, done⟩ := of_bind done
  rw [assigned_cons] at done
  obtain ⟨v, value, done⟩ := of_bind done
  refine ⟨middle, v, first, value, ?_⟩
  rw [lookup_assigned done once, lookup_cons_self]

end Host

namespace Code

def Reads (l : Layout) (id : String) : Prop :=
  ∃ source ∈ hostInputs l.components, ∃ e, Expr.read source = .ok e ∧ e.Mentions id

/-- A generated function has a local for each host input that is no plain name, in order of their sources. The locals
have different names, so each of them keeps the value of its source. If no argument has the name of a local and no host
input reads it, then the assignments, be it all of them or only the first ones, leave every argument and every name that
a host input reads as it was. -/
theorem locals_keep_inputs {result : Result} {args : List String} {name : String} {style : Style} {function : Stmt}
    (generated : generateFunction result args name style = .ok function) :
    ∃ l hoists value, ofResult result = .ok l ∧
      function = .function false name (parametersOf args) none [] (hoists.map assignment ++ [.ret (some value)]) ∧
      List.Forall₂ (fun source hoist => Expr.read source = .ok hoist.2) (hoistedSources l.components) hoists ∧
      hoists.map (·.1) = (List.range hoists.length).map localName ∧ (hoists.map (·.1)).Nodup ∧
      ∀ (env : Environment) (call : Caller) (scope : Scope),
        (∀ rest, run env call scope (hoists.map assignment ++ rest) =
          assigned env call scope hoists >>= fun scope' => run env call scope' rest) ∧
        (∀ before hoist after scope', hoists = before ++ hoist :: after → assigned env call scope hoists = .ok scope' →
          ∃ middle v, assigned env call scope before = .ok middle ∧ evaluate env call middle hoist.2 = .ok v ∧
            env.lookup scope' hoist.1 = .ok v) ∧
        ((∀ k < hoists.length, localName k ∉ args ∧ ¬Reads l (localName k)) →
          ∀ before scope', before <+: hoists → assigned env call scope before = .ok scope' →
            ∀ id, id ∈ args ∨ Reads l id → env.lookup scope' id = env.lookup scope id) := by
  obtain ⟨l, mode, type, hoists, value, laid, -, locals, sources, -, rfl⟩ := generateFunction_ok generated
  rw [sources.length_eq] at locals
  have distinct : (hoists.map (·.1)).Nodup := by
    rw [locals]
    exact nodup_range.map localName_injective
  refine ⟨l, hoists, value, laid, rfl, sources, locals, distinct, fun env call scope => ⟨run_assignments hoists, ?_, ?_⟩⟩
  · rintro before hoist after scope' rfl done
    refine lookup_assigned_local done ?_
    rw [map_append, map_cons, nodup_append, nodup_cons] at distinct
    exact distinct.2.1.1
  · rintro fresh before scope' ⟨after, rfl⟩ done id input
    refine lookup_assigned done fun mem => ?_
    have listed : id ∈ (before ++ after).map (·.1) := by
      rw [map_append]
      exact mem_append_left _ mem
    rw [locals] at listed
    obtain ⟨k, bound, rfl⟩ := mem_map.mp listed
    obtain ⟨unused, unread⟩ := fresh k (mem_range.mp bound)
    exact input.elim unused unread

/-! ### Two inputs of which one is hoisted -/

open Evaluation

def planeInputs (plain : String) : Multivector :=
  ⟨⟨2, 0, 0⟩, ⟨[(1, componentRead plain none), (2, componentRead "obj.w" none)],
    (by decide : [1, 2].Nodup)⟩⟩

theorem read_plain : Expr.read "h" = .ok (.name "h") := rfl

theorem read_attribute : Expr.read "obj.w" = .ok (.attribute (.name "obj") "w") := rfl

theorem ofResult_vector (a b : Coeff) :
    ofResult (.ofMultivector ⟨⟨2, 0, 0⟩, ⟨[(1, a), (2, b)], (by decide : [1, 2].Nodup)⟩⟩) =
      .ok ⟨2, [(1, [a, b])]⟩ := by
  generalize vector : (⟨⟨2, 0, 0⟩, ⟨[(1, a), (2, b)], (by decide : [1, 2].Nodup)⟩⟩ : Multivector) = A
  have grades : A.grades = [1] := by
    have each : [1, 2].map Blade.grade = [1, 1] := by decide +kernel
    rw [← vector]
    show ([1, 2].map Blade.grade).eraseDups.mergeSort (fun a b => decide (a ≤ b)) = [1]
    rw [each]
    decide +kernel
  have parts : A.partition = [(1, A.gradePart 1)] := by
    rw [Multivector.partition, grades]
    rfl
  have blades : Blade.ofGrade A.signature.dimension 1 = [1, 2] := by
    rw [← vector]
    show Blade.ofGrade 2 1 = [1, 2]
    decide +kernel
  rw [Result.ofMultivector, parts]
  show Except.ok (ofMultivector A) = _
  rw [ofMultivector, parts]
  show Except.ok (mk A.signature.dimension [(1, (A.gradePart 1).components 1)]) = _
  rw [Multivector.components_gradePart, blades, ← vector]
  rfl

theorem ofResult_planeInputs (plain : String) : ofResult (.ofMultivector (planeInputs plain)) =
    .ok ⟨2, [(1, [componentRead plain none, componentRead "obj.w" none])]⟩ := ofResult_vector _ _

variable {plain : String}

theorem hostInputs_planeInputs (first : plain < "obj.w") :
    hostInputs [componentRead plain none, componentRead "obj.w" none] = [plain, "obj.w"] := by
  have symbols : [componentRead plain none, componentRead "obj.w" none].flatMap Coeff.symbols =
      [plain, "obj.w"] := by
    simp [componentRead, Coeff.symbols]
  have distinct : [plain, "obj.w"].eraseDups = [plain, "obj.w"] := by
    have : plain ≠ "obj.w" := Std.ne_of_lt first
    simp [eraseDups_cons, this.symm]
  rw [hostInputs, symbols, distinct]
  exact mergeSort_of_pairwise (by simpa using Std.le_of_lt first)

theorem hoistedSources_planeInputs (first : plain < "obj.w") (word : Text.isIdentifier plain = true) :
    hoistedSources [componentRead plain none, componentRead "obj.w" none] = ["obj.w"] := by
  have dotted : Text.isIdentifier "obj.w" = false := by decide +kernel
  rw [hoistedSources, hostInputs_planeInputs first]
  simp [word, dotted]

def planeValue (plain : String) : Expr :=
  .tuple [.apply "getcomponent" [.name plain], .apply "getcomponent" [.name "_input0"]]

theorem emitAll_reads {left right : String} {e e' : Expr} (read : Expr.read left = .ok e)
    (read' : Expr.read right = .ok e') : emitAll [componentRead left none, componentRead right none] =
      .ok [.apply "getcomponent" [e], .apply "getcomponent" [e']] := by
  rw [emitAll, mapM_cons, mapM_cons, (emit_componentRead read).1, (emit_componentRead read').1]
  rfl

theorem read_first_local : Expr.read "_input0" = .ok (.name "_input0") := by
  have first : localName 0 = "_input0" := rfl
  rw [← first, read_localName]

theorem build_planeInputs (other : plain ≠ "obj.w") (read : Expr.read plain = .ok (.name plain)) :
    build (renameInputs ⟨2, [(1, [componentRead plain none, componentRead "obj.w" none])]⟩ [("obj.w", "_input0")])
      .flattened none = .ok (planeValue plain) := by
  have renamed : renameInputs ⟨2, [(1, [componentRead plain none, componentRead "obj.w" none])]⟩
      [("obj.w", "_input0")] = ⟨2, [(1, [componentRead plain none, componentRead "_input0" none])]⟩ := by
    simp [renameInputs, componentRead, Coeff.rename, Coeff.rename?, Coeff.renameList?, lookup_cons,
      beq_false_of_ne other]
  rw [renamed, build]
  show emitAll [componentRead plain none, componentRead "_input0" none] >>= _ = _
  rw [emitAll_reads read read_first_local]
  rfl

theorem generateFunction_planeInputs (first : plain < "obj.w") (word : Text.isIdentifier plain = true)
    (read : Expr.read plain = .ok (.name plain)) (args : List String) :
    generateFunction (.ofMultivector (planeInputs plain)) args "kernel" ⟨"flattened", none⟩ =
      .ok (.function false "kernel" (parametersOf args) none []
        [.assign [.name "_input0"] (.attribute (.name "obj") "w"), .ret (some (planeValue plain))]) := by
  have names : hoisted [componentRead plain none, componentRead "obj.w" none] = [("obj.w", "_input0")] := by
    show (hoistedSources [componentRead plain none, componentRead "obj.w" none]).zipIdx.map _ = _
    rw [hoistedSources_planeInputs first word]
    rfl
  have statement : [("obj.w", "_input0")].mapM hoistStatement =
      .ok [.assign [.name "_input0"] (.attribute (.name "obj") "w")] := by
    rw [mapM_cons, hoistStatement, read_attribute]
    rfl
  rw [generateFunction, ofResult_planeInputs]
  show (do
    let names := hoisted [componentRead plain none, componentRead "obj.w" none]
    let assignments ← names.mapM hoistStatement
    let value ← build (renameInputs _ names) .flattened none
    return Stmt.function false "kernel" (parametersOf args) none [] (assignments ++ [Stmt.ret (some value)])) = _
  rw [names]
  dsimp only
  rw [statement, build_planeInputs (Std.ne_of_lt first) read]
  rfl

theorem mem_of_reads_planeInputs {id : String}
    (reads : Reads ⟨2, [(1, [componentRead "h" none, componentRead "obj.w" none])]⟩ id) : id ∈ ["h", "obj"] := by
  obtain ⟨source, mem, e, read, mentions⟩ := reads
  have listed : source ∈ ["h", "obj.w"] := hostInputs_planeInputs (by decide +kernel : "h" < "obj.w") ▸ mem
  have named := Expr.mem_names mentions
  simp only [mem_cons, not_mem_nil, or_false] at listed
  rcases listed with rfl | rfl
  · cases read.symm.trans read_plain
    exact mem_cons.mpr (.inl (mem_singleton.mp named))
  · cases read.symm.trans read_attribute
    exact mem_cons_of_mem _ named

theorem locals_keep_plane_inputs : ∃ hoists : List (String × Expr), hoists.map (·.1) = ["_input0"] ∧
      ∀ (env : Environment) (call : Caller) (scope scope' : Scope), assigned env call scope hoists = .ok scope' →
        env.lookup scope' "h" = env.lookup scope "h" ∧ env.lookup scope' "obj" = env.lookup scope "obj" := by
  have first : "h" < "obj.w" := by decide +kernel
  have word : Text.isIdentifier "h" = true := by decide +kernel
  have generated := generateFunction_planeInputs first word rfl ["h", "obj"]
  obtain ⟨l, hoists, value, laid, -, sources, locals, -, keeps⟩ := locals_keep_inputs generated
  cases (ofResult_planeInputs "h").symm.trans laid
  have only : hoists.length = 1 := by
    rw [← sources.length_eq]
    exact congrArg List.length (hoistedSources_planeInputs first word)
  rw [only] at locals keeps
  have fresh : ∀ k < 1, localName k ∉ ["h", "obj"] ∧
      ¬Reads ⟨2, [(1, [componentRead "h" none, componentRead "obj.w" none])]⟩ (localName k) := by
    intro k small
    obtain rfl : k = 0 := by omega
    exact ⟨by decide, fun reads => absurd (mem_of_reads_planeInputs reads) (by decide)⟩
  refine ⟨hoists, locals, fun env call scope scope' done => ?_⟩
  have kept := (keeps env call scope).2.2 fresh hoists scope' prefix_rfl done
  exact ⟨kept "h" (.inl (by simp)), kept "obj" (.inl (by simp))⟩

def clashingCall : List Value := [.record ["w"] [.int 2], .int 5]

/-- An argument with the name of a local is lost. The code of the vector reads both inputs, but in the function of these
inputs the local takes the place of the second one. -/
theorem clashing_argument_lost :
    ∃ code body, generate (.ofMultivector (planeInputs "_input0")) ⟨"flattened", none⟩ = .ok code ∧
      generateFunction (.ofMultivector (planeInputs "_input0")) ["obj", "_input0"] "kernel" ⟨"flattened", none⟩ =
        .ok (.function false "kernel" (parametersOf ["obj", "_input0"]) none [] body) ∧
      "_input0" ∈ assignedNames body ∧
      (extending (["obj", "_input0"].zip clashingCall)).evaluate code = .ok (.tuple [.int 5, .int 2]) ∧
      (extending []).call
        (.function "kernel" (parametersOf ["obj", "_input0"]) [] [] body [] []) clashingCall =
        .ok (.tuple [.int 2, .int 2]) := by
  refine ⟨.tuple [.apply "getcomponent" [.name "_input0"], .apply "getcomponent" [.attribute (.name "obj") "w"]], _, ?_,
    generateFunction_planeInputs (by decide +kernel) (by decide +kernel) read_first_local _, by decide, ?_, ?_⟩
  · rw [generate_flattened_components (ofResult_planeInputs "_input0")]
    show Except.map Expr.tuple (emitAll [componentRead "_input0" none, componentRead "obj.w" none]) = _
    rw [emitAll_reads read_first_local read_attribute]
    rfl
  · rfl
  · rfl

end Code

end Bladewright
