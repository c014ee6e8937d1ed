import Bladewright.Execution
import Bladewright.Proofs.Code.ProductCode
import Bladewright.Proofs.Code.RenamedInputs

/-!
Calls of generated functions. A call assigns the host inputs that are no plain names to the locals one by one, and
then evaluates the code of the result with the locals in their place (`call_assignments`).
-/
namespace Bladewright

open List

namespace Host

/-- An environment with more names, which hide those that it has. -/
def Environment.binding (env : Environment) (names : List (String × Value)) : Environment :=
  { env with globals := names ++ env.globals }

theorem Environment.KeepsContract.binding {env : Environment} (contractual : env.KeepsContract)
    {names : List (String × Value)} (free : ∀ entry ∈ Environment.contract, entry.1 ∉ names.map (·.1)) :
    (env.binding names).KeepsContract := by
  refine ⟨fun entry mem => ?_, contractual.constructors⟩
  have absent : names.lookup entry.1 = none := by
    rw [lookup_eq_none_iff]
    intro named listed
    have other : entry.1 ≠ named.1 := fun same => free entry mem (same ▸ mem_map_of_mem listed)
    simpa using other
  show (names ++ env.globals).lookup entry.1 = some entry.2
  rw [lookup_append, absent, contractual.names entry mem]
  rfl

/-- The names of a call before the first assignment: the arguments have values and the locals have none. -/
def startScope (args : List String) (values : List Value) (locals : List String) : Scope :=
  (args.zip values).map (fun entry => (entry.1, some entry.2)) ++ locals.map (·, none)

end Host

open Host

def Kernel.defining (env : Environment) (name : String) (function : Value) : Kernel :=
  ⟨env.binding [(name, function)], function⟩

def Kernel.inside (kernel : Kernel) (scope : Scope) : Place :=
  ⟨kernel.environment, callWithin kernel.environment (callDepth - 1), scope⟩

/-- The names in the body of a kernel after the values of expressions have been assigned to locals. -/
def Kernel.assigned (kernel : Kernel) (scope : Scope) (hoists : List (String × Expr)) : Except Fault Scope :=
  Host.assigned kernel.environment (callWithin kernel.environment (callDepth - 1)) scope hoists

theorem Kernel.lookup_inside (kernel : Kernel) (scope : Scope) (id : String) :
    (kernel.inside scope).lookup id = kernel.environment.lookup scope id := rfl

namespace Code

open Coeff

variable {args : List String} {values : List Value} {mode : Mode}

theorem bindArguments_parametersOf (given : values.length = args.length) :
    bindArguments (parametersOf args) [] values [] = .ok (args.zip values) := by
  have names : parameterNames (args.map fun a => .param a none none) = args := by
    simp [parameterNames, filterMap_map]
  have others : parameterNames [] = [] := rfl
  simp only [bindArguments, parametersOf, nil_append, names, others, append_nil, contains_eq_mem,
    any_nil, Bool.false_eq_true, if_false, filter_nil, given, drop_length, mapM_nil,
    lt_self_iff_false, isEmpty_nil, if_true, pure_bind]
  rfl

theorem assignedNames_assignments (hoists : List (String × Expr)) (value : Expr) :
    assignedNames (hoists.map assignment ++ [.ret (some value)]) = hoists.map (·.1) := by
  rw [assignedNames, flatMap_append, flatMap_map, map_eq_flatMap]
  exact append_nil _

theorem call_assignments (env : Environment) (name : String) {hoists : List (String × Expr)}
    (value : Expr) (fresh : ∀ t ∈ hoists.map (·.1), t ∉ args) (given : values.length = args.length)
    {kernel : Kernel}
    (made : kernel = Kernel.defining env name
      (.function name (parametersOf args) [] [] (hoists.map assignment ++ [.ret (some value)]) [] [])) :
    kernel.call values =
      kernel.assigned (startScope args values (hoists.map (·.1))) hoists >>= fun scope =>
        (kernel.inside scope).value value := by
  subst made
  have bound := bindArguments_parametersOf given
  have unassigned : (hoists.map (·.1)).filter (fun t => !(args.zip values).any (·.1 == t)) = hoists.map (·.1) := by
    refine filter_eq_self.mpr fun t listed => ?_
    have absent : ∀ entry ∈ args.zip values, entry.1 ≠ t := by
      rintro ⟨arg, v⟩ mem rfl
      exact fresh arg listed (of_mem_zip mem).1
    simpa using fun arg v mem => absent (arg, v) mem
  rw [Kernel.call, Environment.call]
  show apply _ (callWithin _ (callDepth - 1)) _ _ _ = _
  rw [Kernel.defining, apply, zip_nil_left, bound]
  show run _ _ ((args.zip values ++ []).map (fun entry : String × Value => (entry.1, some entry.2)) ++
    ((assignedNames _).filter fun t => !(args.zip values).any (·.1 == t)).map (·, none)) _ = _
  rw [assignedNames_assignments, unassigned, append_nil, run_assignments]
  rfl

theorem lookup_map_some (names : List (String × Value)) (id : String) :
    (names.map fun entry => (entry.1, some entry.2)).lookup id = (names.lookup id).map some := by
  induction names with
  | nil => rfl
  | cons entry names ih =>
    rw [map_cons, lookup_cons, lookup_cons]
    cases id == entry.1 with
    | true => rfl
    | false => exact ih

theorem lookup_startScope (env : Environment) {name : String} (function : Value) (args : List String)
    (values : List Value) {locals : List String} {id : String} (other : id ∉ name :: locals) :
    ((Kernel.defining env name function).inside (startScope args values locals)).lookup id =
      (env.binding (args.zip values)).place.lookup id := by
  rw [mem_cons, not_or] at other
  have unassigned : (locals.map (·, (none : Option Value))).lookup id = none := by
    rw [lookup_eq_none_iff]
    rintro entry mem
    obtain ⟨t, listed, rfl⟩ := mem_map.mp mem
    simpa using fun same : id = t => other.2 (same ▸ listed)
  have start : (startScope args values locals).lookup id = ((args.zip values).lookup id).map some := by
    rw [startScope, lookup_append, lookup_map_some, unassigned, Option.or_none]
  have globals : ((name, function) :: env.globals).lookup id = env.globals.lookup id := by
    rw [lookup_cons, beq_false_of_ne other.1]
  simp only [Place.lookup, Kernel.inside, Kernel.defining, Environment.place, Environment.binding, Environment.lookup,
    start, lookup_nil, lookup_append, singleton_append, globals]
  cases (args.zip values).lookup id <;> rfl

/-- An expression that can be evaluated in the body of a kernel in place of `p`: it has a value at `p`, host arithmetic
is exact on it, and it is pure, so that its value is the same wherever the names in it have the same values. -/
structure Hoistable (p : Place) (kernel : Kernel) (number : Value → Option ℚ) (e : Expr) : Prop where
  known : ∃ v, p.value e = .ok v
  exactly : p.Exact number e
  steady : ∀ scope, (∀ id, e.Mentions id → (kernel.inside scope).lookup id = p.lookup id) →
    (kernel.inside scope).value e = p.value e

section

variable {p : Place} {kernel : Kernel} {number : Value → Option ℚ} {hidden : List String}

theorem localName_ne_contract {entry : String × Value} (mem : entry ∈ Environment.contract) (k : Nat) :
    entry.1 ≠ localName k := by
  have starts : ∀ entry ∈ Environment.contract, entry.1.toList.head? ≠ some '_' := by simp [Environment.contract]
  intro same
  refine starts entry mem ?_
  rw [same, toList_localName]
  rfl

/-- Pure expressions are assigned to locals one by one. Each local then has the value of its expression, and all other
names have what they had. -/
theorem assigned_of_pure {hoists : List (String × Expr)} (distinct : (hoists.map (·.1)).Nodup)
    (listed : ∀ hoist ∈ hoists, hoist.1 ∈ hidden)
    (hoistable : ∀ hoist ∈ hoists, Hoistable p kernel number hoist.2 ∧ ∀ id ∈ hidden, ¬hoist.2.Mentions id)
    {scope : Scope} (agrees : ∀ id ∉ hidden, (kernel.inside scope).lookup id = p.lookup id) :
    ∃ scope', kernel.assigned scope hoists = .ok scope' ∧
      (∀ id ∉ hidden, (kernel.inside scope').lookup id = p.lookup id) ∧
      ∀ hoist ∈ hoists, (kernel.inside scope').lookup hoist.1 = p.value hoist.2 := by
  induction hoists generalizing scope with
  | nil => exact ⟨scope, rfl, agrees, by simp⟩
  | cons hoist hoists ih =>
    rw [forall_mem_cons] at listed hoistable
    rw [map_cons, nodup_cons] at distinct
    obtain ⟨v, known⟩ := hoistable.1.1.known
    have valued : (kernel.inside scope).value hoist.2 = .ok v := by
      rw [← known]
      exact hoistable.1.1.steady scope fun id mentions => agrees id fun mem => hoistable.1.2 id mem mentions
    have kept : ∀ id ∉ hidden, (kernel.inside ((hoist.1, some v) :: scope)).lookup id = p.lookup id := by
      intro id free
      have other : id ≠ hoist.1 := fun same => free (same ▸ listed.1)
      rw [Kernel.lookup_inside, Environment.lookup_cons_of_ne other]
      exact agrees id free
    obtain ⟨scope', done, others, locals⟩ := ih distinct.2 listed.2 hoistable.2 kept
    refine ⟨scope', ?_, others, forall_mem_cons.mpr ⟨?_, locals⟩⟩
    · exact (assigned_cons _ _).trans (congrArg (· >>= _) valued) |>.trans done
    · rw [Kernel.lookup_inside, lookup_assigned done distinct.1, Environment.lookup_cons_self, known]

end

/-! ### Kernels and code of one result -/

theorem isFull_of_evaluated {s : Signature} {tree : Tree} {A : Multivector}
    (evaluated : Evaluation.evaluateMultivector s tree = .ok A) {l : Layout}
    (laid : Layout.ofResult (.ofMultivector A) = .ok l) : IsFull l := by
  obtain ⟨terms, valued, ⟨⟩⟩ := Outcome.of_bind evaluated
  have within := Evaluation.within_evaluate valued
  cases laid.symm.trans (Layout.ofResult_ofMultivector (A := ⟨s, terms⟩) within)
  have holds := Layout.holds_ofMultivector (A := ⟨s, terms⟩) within
  exact fun part mem => ⟨holds.exist part mem, holds.complete part mem⟩

theorem read_untyped {m : String} {type : Option Expr} (read : Style.read ⟨m, none⟩ = .ok (mode, type)) :
    Mode.ofName? m = some mode ∧ type = none := by
  rw [Style.read] at read
  cases found : Mode.ofName? m with
  | none =>
    rw [found] at read
    cases read
  | some mode =>
    rw [found] at read
    cases read
    exact ⟨rfl, rfl⟩

/-- Host arithmetic is exact on every part of an expression. -/
def ExactOn (p : Place) (number : Value → Option ℚ) (code : Expr) : Prop := ∀ e, e.IsPart code → p.Exact number e

theorem AreNumbers.eq {number : Value → Option ℚ}
    (faithful : ∀ v w x, number v = some x → number w = some x → v = w) {groups groups' : List (Int × List Value)}
    {amounts : List (Int × List ℚ)} (numbers : AreNumbers number groups amounts)
    (numbers' : AreNumbers number groups' amounts) : groups = groups' := by
  have values : Relator.LeftUnique fun v x => number v = some x := faithful
  refine Relator.LeftUnique.forall₂ (fun group group' amount own own' => ?_) numbers numbers'
  exact Prod.ext (own.1.trans own'.1.symm) (values.forall₂ own.2 own'.2)

/-- The calls of a kernel evaluate each host input of a layout that is no plain name once, in the order of the sources.
Then they evaluate the code of components, and that reads plain names only. -/
structure HoistsInOrder (kernel : Kernel) (args : List String) (l : Layout) (mode : Mode)
    (hoists : List (String × Expr)) (value : Expr) : Prop where
  ascending : (hoistedSources l.components).Pairwise (· < ·)
  sources : List.Forall₂ (fun source hoist => Expr.read source = .ok hoist.2) (hoistedSources l.components) hoists
  plain : ∃ l', build l' mode none = .ok value ∧ ∀ source ∈ hostInputs l'.components, Text.isIdentifier source = true
  calls : ∀ values : List Value, values.length = args.length → kernel.call values =
    kernel.assigned (startScope args values (hoists.map (·.1))) hoists >>= fun scope => (kernel.inside scope).value value

section

variable {l : Layout} {hoists : List (String × Expr)} (hoisting : IsHoisted l hoists)
include hoisting

theorem hoistsInOrder {value : Expr} (built : build (renameInputs l (hoisted l.components)) mode none = .ok value)
    (fresh : ∀ k, localName k ∉ args) (env : Environment) (name : String) :
    HoistsInOrder (.defining env name
      (.function name (parametersOf args) [] [] (hoists.map assignment ++ [.ret (some value)]) [] []))
      args l mode hoists value where
  ascending := (hostInputs_ascending _).filter _
  sources := hoisting.sources
  plain := ⟨_, built, fun _ => isIdentifier_renameInputs⟩
  calls := by
    intro values given
    refine call_assignments env name value (fun t mem => ?_) given rfl
    obtain ⟨k, rfl⟩ := hoisting.numbered t mem
    exact fresh k

variable {p : Place} {kernel : Kernel} {number : Value → Option ℚ} {name : String}

variable {scope : Scope}

theorem exists_assigned (free : ∀ id ∈ name :: hoists.map (·.1), ¬Reads l id)
    (hoistable : ∀ hoist ∈ hoists, Hoistable p kernel number hoist.2)
    (agrees : ∀ id ∉ name :: hoists.map (·.1), (kernel.inside scope).lookup id = p.lookup id) :
    ∃ scope', kernel.assigned scope hoists = .ok scope' ∧
      (∀ id ∉ name :: hoists.map (·.1), (kernel.inside scope').lookup id = p.lookup id) ∧
      ∀ hoist ∈ hoists, (kernel.inside scope').lookup hoist.1 = p.value hoist.2 := by
  have hidden := hoisting.forall_expressions (P := fun e => ∀ id ∈ name :: hoists.map (·.1), ¬e.Mentions id)
    fun source listed e read id mem mentions =>
      free id mem ⟨source, (mem_filter.mp listed).1, e, read, mentions⟩
  exact assigned_of_pure hoisting.distinct (fun hoist mem => mem_cons_of_mem name (mem_map_of_mem mem))
    (fun hoist mem => ⟨hoistable hoist mem, hidden hoist mem⟩) agrees

theorem keepsContract_inside (contractual : p.KeepsContract)
    (usual : kernel.environment.constructors = Environment.standardConstructors)
    (apart : ∀ entry ∈ Environment.contract, entry.1 ≠ name)
    (agrees : ∀ id ∉ name :: hoists.map (·.1), (kernel.inside scope).lookup id = p.lookup id) :
    (kernel.inside scope).KeepsContract := by
  refine ⟨fun entry mem => (agrees entry.1 fun listed => ?_).trans (contractual.names entry mem), usual, 997, rfl⟩
  rcases mem_cons.mp listed with same | listed
  · exact apart entry mem same
  · obtain ⟨k, same⟩ := hoisting.numbered entry.1 listed
    exact localName_ne_contract mem k same

end

/-- What a call asks of the host where its arguments are bound: the components of the layout have values there, host
arithmetic is exact on their code, and the inputs that have locals can be hoisted. -/
structure MeetsHost (p : Place) (kernel : Kernel) (number : Value → Option ℚ) (l : Layout) (code : Expr)
    (amounts : List (Int × List ℚ)) : Prop where
  amounts : Amounts (p.readings number) l amounts
  exactly : ExactOn p number code
  hoistable : ∀ source ∈ hoistedSources l.components, ∀ e, Expr.read source = .ok e → Hoistable p kernel number e

/-- A kernel returns what the code of its result gives where the arguments are bound. Locals have names that no argument
has and that no host input reads, no host input reads the name of the kernel, and neither the arguments nor the kernel
hide a name that generated code relies on. Then every call evaluates each host input that is no plain name once, in the
order of the sources, and the components after that. If these inputs are pure and arithmetic is exact, the call and the
code give outputs with the same numbers, which are the values of the components; and where no two values are the same
number, they give the same value. -/
theorem hoisted_call_agrees {s : Signature} {tree : Tree} {A : Multivector}
    (evaluated : Evaluation.evaluateMultivector s tree = .ok A) {l : Layout}
    (laid : Layout.ofResult (.ofMultivector A) = .ok l) {m name : String} {args : List String} {code : Expr}
    (expression : generate (.ofMultivector A) ⟨m, none⟩ = .ok code) {definition : Stmt}
    (generated : generateFunction (.ofMultivector A) args name ⟨m, none⟩ = .ok definition) {env : Environment}
    (contractual : env.KeepsContract) {kernel : Kernel}
    (made : definition.toFunction?.map (Kernel.defining env name) = some kernel)
    (apart : ∀ entry ∈ Environment.contract, entry.1 ∉ args ∧ entry.1 ≠ name)
    (fresh : ∀ k, localName k ∉ args ∧ ¬Reads l (localName k)) (unread : ¬Reads l name) :
    ∃ mode hoists value, Mode.ofName? m = some mode ∧
      definition = .function false name (parametersOf args) none [] (hoists.map assignment ++ [.ret (some value)]) ∧
      HoistsInOrder kernel args l mode hoists value ∧
      ∀ (values : List Value) (number : Value → Option ℚ) (amounts : List (Int × List ℚ)),
        values.length = args.length →
        MeetsHost (env.binding (args.zip values)).place kernel number l code amounts →
        (∀ scope, kernel.assigned (startScope args values (hoists.map (·.1))) hoists = .ok scope →
          ExactOn (kernel.inside scope) number value) →
        ∃ groups groups', kernel.call values = .ok (outputValue l.dimension mode groups) ∧
          (env.binding (args.zip values)).evaluate code = .ok (outputValue l.dimension mode groups') ∧
          AreNumbers number groups amounts ∧ AreNumbers number groups' amounts ∧
          ((∀ v w x, number v = some x → number w = some x → v = w) →
            kernel.call values = (env.binding (args.zip values)).evaluate code) := by
  obtain ⟨_, mode, type, hoists, value, laid', style, locals, sources, built, rfl⟩ := generateFunction_ok generated
  cases laid.symm.trans laid'
  obtain ⟨moded, rfl⟩ := read_untyped style
  cases made
  have hoisting : IsHoisted l hoists := ⟨locals, sources⟩
  have full := isFull_of_evaluated evaluated laid
  have free : ∀ id ∈ name :: hoists.map (·.1), ¬Reads l id := by
    refine forall_mem_cons.mpr ⟨unread, fun t mem => ?_⟩
    obtain ⟨k, rfl⟩ := hoisting.numbered t mem
    exact (fresh k).2
  have ordered := hoistsInOrder hoisting built (fun k => (fresh k).1) env name
  refine ⟨mode, hoists, value, moded, rfl, ordered, fun values number amounts given meets exactly => ?_⟩
  have bound : (env.binding (args.zip values)).place.KeepsContract := by
    refine (contractual.binding fun entry mem listed => (apart entry mem).1 ?_).place
    obtain ⟨⟨arg, v⟩, zipped, same⟩ := mem_map.mp listed
    exact same ▸ (of_mem_zip zipped).1
  have hoistable := hoisting.forall_expressions meets.hoistable
  obtain ⟨scope, done, agrees, held⟩ := exists_assigned hoisting free hoistable
    fun id other => lookup_startScope env _ args values other
  have inside := keepsContract_inside hoisting bound contractual.constructors (fun entry mem => (apart entry mem).2)
    agrees
  have carried := carries_inputs bound inside hoisting
    (fun hoist mem => ⟨(hoistable hoist mem).known, (hoistable hoist mem).exactly⟩) held
    (fun id reads => agrees id fun mem => free id mem reads)
  obtain ⟨groups, returned, numbers⟩ := value_build inside (isFull_renameInputs full _) (meets.amounts.renameInputs carried)
    built (exactly scope done)
  obtain ⟨groups', plain, numbers'⟩ := value_build bound full meets.amounts
    ((generate_eq_build laid style).symm.trans expression) meets.exactly
  rw [dimension_renameInputs] at returned
  have called : _ = Except.ok (outputValue l.dimension mode groups) :=
    (ordered.calls values given).trans ((congrArg (· >>= _) done).trans returned)
  refine ⟨groups, groups', called, plain, numbers, numbers', fun faithful => ?_⟩
  rw [called, numbers.eq faithful numbers']
  exact plain.symm

/-! ### A call with an attribute -/

open Evaluation

def planeTree : Tree :=
  let scaled (source : String) (i : Int) : Tree :=
    .operation .geometricProduct [.typed (.host source) (.named 0 "Scalar"), .blade [i]]
  .operation .add [scaled "h" 0, scaled "obj.w" 1]

theorem evaluate_planeTree : evaluateMultivector ⟨2, 0, 0⟩ planeTree = .ok (planeInputs "h") := by
  have checked : checkedGrades (α := Coeff) ⟨2, 0, 0⟩ (.named 0 "Scalar") = .ok [0] := by
    have resolved : (GradeSpec.named 0 "Scalar").resolve (Signature.dimension ⟨2, 0, 0⟩) = [0] := by decide +kernel
    rw [checkedGrades, resolved]
    rfl
  simp only [evaluateMultivector, planeTree, Evaluation.evaluate, evaluateEach, checked]
  rfl

def integer? : Value → Option ℚ
  | .int n => some n
  | _ => none

theorem eq_of_integer? (v w : Value) (x : ℚ) (first : integer? v = some x) (second : integer? w = some x) : v = w := by
  unfold integer? at first second
  split at first <;> cases first
  split at second
  · simpa using second.symm
  · cases second

def planeCall : List Value := [.int 5, .record ["w"] [.int 2]]

def planeNames : Environment := (Environment.extending []).binding (["h", "obj"].zip planeCall)

theorem hasValue_componentRead {r : Readings} {source : String} {e : Expr} {x : ℚ} (read : Expr.read source = .ok e)
    (found : r.component e none = some x) : HasValue r (componentRead source none) x :=
  ⟨.app ⟨e, x, read, found⟩, .only source, component_total read found⟩

theorem amounts_planeInputs : Amounts (planeNames.place.readings integer?)
    ⟨2, [(1, [componentRead "h" none, componentRead "obj.w" none])]⟩ [(1, [5, 2])] :=
  .cons ⟨rfl, .cons (hasValue_componentRead read_plain rfl) (.cons (hasValue_componentRead read_attribute rfl) .nil)⟩ .nil

theorem exactOn_of_breadthFirst {p : Place} {number : Value → Option ℚ} {code : Expr}
    (each : ∀ e ∈ code.breadthFirst, p.Exact number e) : ExactOn p number code :=
  fun e part => each e (Expr.mem_levels part mem_cons_self (Nat.le_refl _))

def planeCode : Expr := .tuple [.apply "getcomponent" [.name "h"], .apply "getcomponent" [.attribute (.name "obj") "w"]]

theorem exactOn_reads (p : Place) (number : Value → Option ℚ) :
    ExactOn p number (planeValue "h") ∧ ExactOn p number planeCode := by
  refine ⟨exactOn_of_breadthFirst fun e mem => ?_, exactOn_of_breadthFirst fun e mem => ?_⟩
  · simp only [Expr.breadthFirst, planeValue, Expr.apply, Expr.height, Expr.heightList, max_self, zero_add, zero_le,
      sup_of_le_left, Nat.reduceAdd, Expr.levels, flatMap_cons, Expr.children, flatMap_nil, append_nil,
      cons_append, nil_append, mem_cons, not_mem_nil, or_false] at mem
    rcases mem with rfl | rfl | rfl | rfl | rfl | rfl | rfl <;> exact fun _ found => found
  · simp only [Expr.breadthFirst, planeCode, Expr.apply, Expr.height, Expr.heightList, max_self, zero_add, zero_le,
      sup_of_le_left, sup_of_le_right, Nat.reduceAdd, Nat.one_le_ofNat, Expr.levels, flatMap_cons, Expr.children,
      flatMap_nil, append_nil, cons_append, nil_append, mem_cons, not_mem_nil,
      or_false] at mem
    rcases mem with rfl | rfl | rfl | rfl | rfl | rfl | rfl | rfl <;> exact fun _ found => found

theorem hoistable_attribute (kernel : Kernel) :
    Hoistable planeNames.place kernel integer? (.attribute (.name "obj") "w") where
  known := ⟨.int 2, rfl⟩
  exactly := fun _ found => found
  steady := by
    intro scope same
    have object := same "obj" (.child mem_cons_self .self)
    show (do (← (kernel.inside scope).lookup "obj").attributeOf "w") = (do (← planeNames.place.lookup "obj").attributeOf "w")
    rw [object]

theorem call_planeTree : ∃ code definition kernel,
    generate (.ofMultivector (planeInputs "h")) ⟨"flattened", none⟩ = .ok code ∧
    generateFunction (.ofMultivector (planeInputs "h")) ["h", "obj"] "kernel" ⟨"flattened", none⟩ = .ok definition ∧
    definition.toFunction?.map (Kernel.defining (.extending []) "kernel") = some kernel ∧
    kernel.call planeCall = planeNames.evaluate code ∧ kernel.call planeCall = .ok (.tuple [.int 5, .int 2]) := by
  have first : "h" < "obj.w" := by decide +kernel
  have word : Text.isIdentifier "h" = true := by decide +kernel
  have laid := ofResult_planeInputs "h"
  have generated := generateFunction_planeInputs first word rfl ["h", "obj"]
  have expression : generate (.ofMultivector (planeInputs "h")) ⟨"flattened", none⟩ = .ok planeCode := by
    rw [generate_flattened_components laid]
    show Except.map Expr.tuple (emitAll [componentRead "h" none, componentRead "obj.w" none]) = _
    rw [emitAll_reads read_plain read_attribute]
    rfl
  have contractual : (Environment.extending []).KeepsContract := Environment.keepsContract_extending (by simp)
  have other : ∀ k, localName k ∉ ["h", "obj"] := by
    have starts : ∀ arg ∈ ["h", "obj"], arg.toList.head? ≠ some '_' := by decide
    intro k mem
    refine starts _ mem ?_
    rw [toList_localName]
    rfl
  obtain ⟨mode, hoists, value, moded, shape, -, calls⟩ := hoisted_call_agrees evaluate_planeTree laid expression generated
    contractual rfl (by decide) (fun k => ⟨other k, fun reads => other k (mem_of_reads_planeInputs reads)⟩)
    (fun reads => absurd (mem_of_reads_planeInputs reads) (by decide))
  have returned : planeValue "h" = value := by
    injection shape with _ _ _ _ _ body
    simpa using congrArg List.getLast? body
  have hoistable (kernel : Kernel) : ∀ source ∈ hoistedSources [componentRead "h" none, componentRead "obj.w" none],
      ∀ e, Expr.read source = .ok e → Hoistable planeNames.place kernel integer? e := by
    rw [hoistedSources_planeInputs first word]
    intro source mem e read
    obtain rfl := mem_singleton.mp mem
    cases read.symm.trans read_attribute
    exact hoistable_attribute kernel
  obtain ⟨_, _, -, -, -, -, same⟩ := calls planeCall integer? [(1, [5, 2])] rfl
    ⟨amounts_planeInputs, (exactOn_reads _ _).2, hoistable _⟩ fun scope _ => returned ▸ (exactOn_reads _ _).1
  exact ⟨_, _, _, expression, generated, rfl, same eq_of_integer?, rfl⟩

/-! ### A kernel with a name that its code relies on -/

def vectorTree : Tree := .typed (.host "x") (.named 1 "Vector")

theorem nodup_vectorBlades : [1, 2].Nodup := by decide

def vectorValue : Multivector :=
  ⟨⟨2, 0, 0⟩, ⟨[(1, componentRead "x" (some 0)), (2, componentRead "x" (some 1))], nodup_vectorBlades⟩⟩

def vectorLayout : Layout := ⟨2, [(1, [componentRead "x" (some 0), componentRead "x" (some 1)])]⟩

def vectorCode : Expr := construct (kvectorType 1 2) (componentReads (.name "x") 2)

theorem evaluate_vectorTree : evaluateMultivector ⟨2, 0, 0⟩ vectorTree = .ok vectorValue := by
  have checked : checkedGrades (α := Coeff) ⟨2, 0, 0⟩ (.named 1 "Vector") = .ok [1] := by
    have resolved : (GradeSpec.named 1 "Vector").resolve (Signature.dimension ⟨2, 0, 0⟩) = [1] := by decide +kernel
    rw [checkedGrades, resolved]
    rfl
  simp only [evaluateMultivector, vectorTree, Evaluation.evaluate, checked]
  rfl

theorem symbols_vectorLayout : ∀ c ∈ vectorLayout.components, ∀ name ∈ c.symbols, name = "x" := by
  intro c listed name mem
  rcases mem_cons.mp listed with rfl | listed
  · exact mem_symbols_componentAt (i := 0) mem
  · obtain rfl := mem_singleton.mp listed
    exact mem_symbols_componentAt (i := 1) mem

theorem build_vectorLayout : build vectorLayout .nested none = .ok vectorCode := by
  have codes := emitAll_components (rfl : Expr.read "x" = .ok (.name "x")) 2
  rw [build_nested]
  show Except.map (nestedCode 2) ([(1, components symbolic "x" 2)].mapM fun part => (emitAll part.2).map (part.1, ·)) = _
  rw [mapM_cons, codes]
  rfl

def vectorCall : List Value := [.list [.int 1, .int 2]]

/-- A kernel must not have a name that its code relies on. If it is called `construct`, then its code calls the kernel in
place of the function that builds objects, and fails where the code of the result builds a vector. -/
theorem kernel_hides_construct : ∃ definition kernel,
    evaluateMultivector ⟨2, 0, 0⟩ vectorTree = .ok vectorValue ∧
    Layout.ofResult (.ofMultivector vectorValue) = .ok vectorLayout ∧ (∀ id, Reads vectorLayout id → id = "x") ∧
    generate (.ofMultivector vectorValue) ⟨"nested", none⟩ = .ok vectorCode ∧
    generateFunction (.ofMultivector vectorValue) ["x"] "construct" ⟨"nested", none⟩ = .ok definition ∧
    definition.toFunction?.map (Kernel.defining (.extending []) "construct") = some kernel ∧
    ((Environment.extending []).binding (["x"].zip vectorCall)).evaluate vectorCode =
      .ok (.kvector 1 2 [.int 1, .int 2]) ∧
    kernel.call vectorCall = .error .typeError := by
  have laid : Layout.ofResult (.ofMultivector vectorValue) = .ok vectorLayout := ofResult_vector _ _
  have plain : ∀ c ∈ vectorLayout.components, ∀ name ∈ c.symbols, Text.isIdentifier name = true := by
    intro c listed name mem
    rw [symbols_vectorLayout c listed name mem]
    decide +kernel
  refine ⟨_, _, evaluate_vectorTree, laid, ?_, (generate_eq_build laid rfl).trans build_vectorLayout,
    generateFunction_of_plain laid plain rfl build_vectorLayout ["x"] "construct", rfl, ?_, ?_⟩
  · rintro id ⟨source, input, e, read, mentions⟩
    obtain ⟨c, listed, mem⟩ := mem_hostInputs.mp input
    obtain rfl := symbols_vectorLayout c listed source mem
    cases read.symm.trans (rfl : Expr.read "x" = .ok (.name "x"))
    exact mem_singleton.mp (Expr.mem_names mentions)
  · have contractual : (Environment.extending []).KeepsContract := Environment.keepsContract_extending (by simp)
    exact Environment.evaluate_construct (contractual.binding (by decide)) (by decide) rfl (.cons rfl (.cons rfl .nil))
  · rfl

end Code

end Bladewright
