import Bladewright.Code.Generate
import Bladewright.Host.Evaluation
import Bladewright.Proofs.Coeff.PowerTerms

/-!
The objects that generated code reads and builds.
-/
namespace Bladewright

namespace Host

open Value

theorem combinations_eq_choose (n k : Nat) : combinations n k = n.choose k := by
  unfold combinations
  split
  · rename_i few
    exact (Nat.choose_eq_zero_of_lt few).symm
  · rename_i enough
    rw [Coeff.foldl_choose]
    rcases Nat.le_total k (n - k) with less | less
    · rw [Nat.min_eq_left less]
    · rw [Nat.min_eq_right less, Nat.choose_symm (Nat.le_of_not_lt enough)]

variable {grade : Int} {n i : Nat} {values : List Value}

theorem buildKVector_ok (exist : 0 ≤ grade ∧ grade ≤ n) (complete : values.length = n.choose grade.toNat) :
    buildKVector (.int grade) (.int n) (.tuple values) = .ok (.kvector grade n values) := by
  have inside : (decide (grade < 0) || decide ((n : Int) < 0)) = false := by
    simp only [Bool.or_eq_false_iff, decide_eq_false_iff_not]
    omega
  have expected : (values.length != combinations (n : Int).toNat grade.toNat) = false := by
    rw [Int.toNat_natCast, combinations_eq_choose, complete, bne_self_eq_false]
  have reached : ¬ (n : Int) < grade := by omega
  simp only [buildKVector, items, pure_bind, Value.position?, inside, expected, reached, if_false, Bool.false_eq_true]
  rfl

theorem choose_place {α : Type} {one : α → Value} {several : List α → Value} {xs : List α} {x : α}
    (placed : xs[i]? = some x) : choose one several xs (.int i) = .ok (one x) := by
  obtain ⟨inside, -⟩ := List.getElem?_eq_some_iff.mp placed
  have found : Bladewright.position? xs.length i = some i := by
    have natural : ¬ (i : Int) < 0 := by omega
    simp [Bladewright.position?, natural, inside]
  simp only [choose, select, Value.position?, found, Option.bind_some, placed]
  rfl

namespace Value

def Holds (v : Value) (es : List Value) : Prop := v = .tuple es ∨ v = .list es

variable {v : Value} {es : List Value}

theorem Holds.items (holds : v.Holds es) : v.items = .ok es := by
  rcases holds with rfl | rfl <;> rfl

theorem Holds.length (holds : v.Holds es) : v.length = .ok es.length := by
  rcases holds with rfl | rfl <;> rfl

theorem Holds.component (holds : v.Holds es) {x : Value} (placed : es[i]? = some x) : v.component (.int i) = .ok x := by
  rcases holds with rfl | rfl <;> exact choose_place placed

end Value

theorem evaluateAll_ok {env : Environment} {call : Caller} {scope : Scope} {es : List Expr} {vs : List Value}
    (each : List.Forall₂ (fun e v => evaluate env call scope e = .ok v) es vs) :
    evaluateAll env call scope es = .ok vs := by
  induction each with
  | nil => rfl
  | @cons e v es vs first _ ih =>
    cases e with
    | starred e => cases first
    | _ =>
      simp only [evaluateAll, first, ih]
      rfl

namespace Environment

/-- The names that generated code relies on have their usual values, and objects are built as usual. -/
structure KeepsContract (env : Environment) : Prop where
  names : ∀ entry ∈ contract, env.globals.lookup entry.1 = some entry.2
  constructors : env.constructors = standardConstructors

theorem keepsContract_extending {names : List (String × Value)}
    (free : ∀ entry ∈ contract, names.lookup entry.1 = Option.none) : (extending names).KeepsContract := by
  refine ⟨fun entry mem => ?_, rfl⟩
  show (names ++ contract).lookup entry.1 = some entry.2
  rw [List.lookup_append, free entry mem, Option.none_or]
  simp only [contract, List.mem_cons, List.not_mem_nil, or_false] at mem
  rcases mem with rfl | rfl | rfl <;> rfl

theorem constructor?_kvectorType {env : Environment} (usual : env.constructors = standardConstructors)
    (grade dimension : Value) : env.constructor? (.kvectorType grade dimension) = .ok Option.none := by
  have differs (k : Kind) : same (.type k) (.kvectorType grade dimension) = .ok false := by
    rw [same]
    · rfl
    all_goals simp
  simp only [constructor?, usual, standardConstructors, List.filterM, List.filterAuxM, differs]
  rfl

end Environment

/-- Where expressions are evaluated: the environment, what calls do in it, and the names that are bound. -/
structure Place where
  env : Environment
  call : Caller
  scope : Scope

namespace Place

def lookup (p : Place) (id : String) : Except Fault Value := p.env.lookup p.scope id

def value (p : Place) (e : Expr) : Except Fault Value := evaluate p.env p.call p.scope e

/-- The names that generated code relies on have their usual values, objects are built as usual, and there are calls
left for that. -/
structure KeepsContract (p : Place) : Prop where
  names : ∀ entry ∈ Environment.contract, p.lookup entry.1 = .ok entry.2
  constructors : p.env.constructors = Environment.standardConstructors
  calls : ∃ depth, p.call = callWithin p.env (depth + 2)

variable {p : Place}

variable {es : List Expr}

theorem value_tuple (each : List.Forall₂ (fun e v => p.value e = .ok v) es values) :
    p.value (.tuple es) = .ok (.tuple values) := by
  show (do return Value.tuple (← evaluateAll p.env p.call p.scope es)) = _
  rw [evaluateAll_ok each]
  rfl

theorem value_apply (contractual : p.KeepsContract) {entry : String × Value} (mem : entry ∈ Environment.contract)
    {args : List Expr} (each : List.Forall₂ (fun e v => p.value e = .ok v) args values) :
    p.value (.apply entry.1 args) = p.call entry.2 values [] := by
  have found : p.env.lookup p.scope entry.1 = .ok entry.2 := contractual.names entry mem
  have given : evaluateAll p.env p.call p.scope args = .ok values := evaluateAll_ok each
  simp only [value, Expr.apply, evaluate, found, given, evaluateKeywords]
  rfl

theorem value_kvectorType (contractual : p.KeepsContract) (grade : Int) (n : Nat) :
    p.value (Code.kvectorType grade n) = .ok (.kvectorType (.int grade) (.int n)) := by
  have type : p.env.lookup p.scope "KVector" = .ok (.type .kvector) :=
    contractual.names ("KVector", .type .kvector) (by simp [Environment.contract])
  simp only [value, Code.kvectorType, evaluate, type]
  rfl

theorem value_construct (contractual : p.KeepsContract) (exist : 0 ≤ grade ∧ grade ≤ n)
    (complete : values.length = n.choose grade.toNat)
    (each : List.Forall₂ (fun e v => p.value e = .ok v) es values) :
    p.value (Code.construct (Code.kvectorType grade n) es) = .ok (.kvector grade n values) := by
  have mem : ("construct", .routine .construct) ∈ Environment.contract := by simp [Environment.contract]
  obtain ⟨depth, calls⟩ := contractual.calls
  rw [Code.construct, value_apply contractual mem
    (.cons (value_kvectorType contractual grade n) (.cons (value_tuple each) .nil)), calls]
  show p.env.construct (callWithin p.env (depth + 1)) (.kvectorType (.int grade) (.int n)) (.tuple values) = _
  simp only [Environment.construct, Environment.constructor?_kvectorType contractual.constructors]
  exact buildKVector_ok exist complete

end Place

namespace Environment

variable {env : Environment}

def place (env : Environment) : Place := ⟨env, callWithin env callDepth, []⟩

theorem KeepsContract.place (contractual : env.KeepsContract) : env.place.KeepsContract := by
  refine ⟨fun entry mem => ?_, contractual.constructors, 998, rfl⟩
  show env.lookup [] entry.1 = .ok entry.2
  rw [lookup, List.lookup_nil]
  simp only [contractual.names entry mem]
  rfl

theorem evaluate_construct (contractual : env.KeepsContract) (exist : 0 ≤ grade ∧ grade ≤ n)
    {es : List Expr} (complete : values.length = n.choose grade.toNat)
    (each : List.Forall₂ (fun e v => env.evaluate e = .ok v) es values) :
    env.evaluate (Code.construct (Code.kvectorType grade n) es) = .ok (.kvector grade n values) :=
  Place.value_construct contractual.place exist complete each

variable {dimension : Int} {e : Expr} {v : Value}

theorem evaluate_getComponent (contractual : env.KeepsContract)
    (input : env.evaluate e = .ok (.kvector grade dimension values))
    (placed : values[i]? = some v) : env.evaluate (.apply "getcomponent" [e, .int i]) = .ok v := by
  have mem : ("getcomponent", .routine .getComponent) ∈ contract := by simp [contract]
  have index : env.evaluate (.int i) = .ok (.int i) := rfl
  exact (Place.value_apply contractual.place mem (.cons input (.cons index .nil))).trans (choose_place placed)

theorem evaluate_getComponent_only (contractual : env.KeepsContract)
    (input : env.evaluate e = .ok (.kvector grade dimension [v])) :
    env.evaluate (.apply "getcomponent" [e]) = .ok v := by
  have mem : ("getcomponent", .routine .getComponent) ∈ contract := by simp [contract]
  exact Place.value_apply contractual.place mem (.cons input .nil)

end Environment

end Host

end Bladewright
