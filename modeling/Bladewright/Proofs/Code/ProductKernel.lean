import Bladewright.Proofs.Code.Hoisting
import Bladewright.Proofs.Code.ProductCode
import Bladewright.Proofs.Compilation.Outcomes

/-!
The kernel of a product.
-/
namespace Bladewright

open Host Coeff Evaluation

namespace Host

/-- Values on which the operators act as those of a ring. -/
structure ActsAs {α : Type} [CommRing α] (inject : α → Value) : Prop where
  minus (x : α) : Value.operateUnary .minus (inject x) = .ok (inject (-x))
  add (x y : α) : Value.operate .add (inject x) (inject y) = .ok (inject (x + y))
  sub (x y : α) : Value.operate .sub (inject x) (inject y) = .ok (inject (x - y))
  mul (x y : α) : Value.operate .mul (inject x) (inject y) = .ok (inject (x * y))

theorem evaluate_binary {env : Environment} {call : Caller} {scope : Scope} {op : BinaryOp} {a b : Expr} {x y : Value}
    (left : evaluate env call scope a = .ok x) (right : evaluate env call scope b = .ok y) :
    evaluate env call scope (.binary op a b) = Value.operate op x y := by
  rw [evaluate, left, right]
  rfl

end Host

namespace Code

theorem generateFunction_flattened {result : Result} {l : Layout} (laid : Layout.ofResult result = .ok l)
    (plain : ∀ c ∈ l.components, ∀ name ∈ c.symbols, Text.isIdentifier name = true) {codes : List Expr}
    (emitted : emitAll l.components = .ok codes) (args : List String) (name : String) :
    generateFunction result args name ⟨"flattened", none⟩ =
      .ok (.function false name (.params [] (args.map fun a => .param a none none) none [] none) none []
        [.ret (some (.tuple codes))]) := by
  have built : build l .flattened none = .ok (.tuple codes) := by
    rw [build, emitted]
    rfl
  exact generateFunction_of_plain laid plain rfl built args name

/-! ### The kernel of a product -/

def productJob (signature : Datum) : Job where
  signature := signature
  source := .text "a: Multivector\nb: Multivector\na * b"
  mode := "flattened"
  type := .usual
  names := []

def productParams : Expr := .params [] [.param "a" none none, .param "b" none none] none [] none

def productFunction (codes : List Expr) : Value :=
  .function "kernel" productParams [] [] [.ret (some (.tuple codes))] [] []

def productKernel (codes : List Expr) : Kernel :=
  ⟨⟨("kernel", productFunction codes) :: Environment.contract, Environment.standardConstructors⟩,
    productFunction codes⟩

def productTree : Tree :=
  .operation .geometricProduct [.typed (.host "a") .multivector, .typed (.host "b") .multivector]

theorem evaluate_productTree (s : Signature) :
    evaluateMultivector s productTree = .ok (inputProduct s "a" "b") := by
  have input (source : String) : Evaluation.evaluate symbolic s (.typed (.host source) .multivector) =
      .ok (inputTerms symbolic s.dimension source ((List.range (s.dimension + 1)).map Int.ofNat)) := by
    have read : evaluateMultivector s (.typed (.host source) .multivector) = _ := evaluate_input exist_all
    obtain ⟨terms, evaluated, same⟩ := Outcome.of_bind read
    cases same
    exact evaluated
  rw [evaluateMultivector, productTree, Evaluation.evaluate, evaluateEach, evaluateEach, evaluateEach, input, input]
  rfl

theorem analysis_product {signature : Datum} {s : Signature} (signed : Signature.ofSpec signature = .ok s) :
    analysis signature (productJob signature).source .builtin =
      .ok (s, productTree, .ofMultivector (inputProduct s "a" "b")) := by
  have read : Surface.readProgram (productJob signature).source = .ok
      ⟨[("a", .reference (.typed (.symbol "a") .multivector)), ("b", .reference (.typed (.symbol "b") .multivector))],
        .call "geometric_product" [.symbol "a", .symbol "b"]⟩ := rfl
  rw [analysis, signed, read]
  show (do
    let A ← (evaluateMultivector s productTree).mapError Failure.evaluation
    return (s, productTree, Result.ofMultivector A)) = _
  rw [evaluate_productTree]
  rfl

section

variable {signature : Datum} {s : Signature} (signed : Signature.ofSpec signature = .ok s)
include signed

theorem compiled_product {codes : List Expr}
    (emitted : emitAll ((everyBlade s.dimension).map (inputProduct s "a" "b").terms.coeff) = .ok codes) :
    compiled signature (productJob signature).source ⟨"flattened", none⟩ .builtin = written (.tuple codes)
      ⟨s, productTree, .ofMultivector (inputProduct s "a" "b"), .tuple codes⟩ := by
  have generated : generate (.ofMultivector (inputProduct s "a" "b")) ⟨"flattened", none⟩ = .ok (.tuple codes) := by
    rw [generate_flattened_components (Layout.ofResult_ofMultivector (within_inputProduct "a" "b")),
      components_inputProduct, emitted]
    rfl
  rw [compiled, analysis_product signed]
  show (writtenCode _ ⟨"flattened", none⟩ >>= fun code =>
    pure (⟨s, productTree, .ofMultivector (inputProduct s "a" "b"), code⟩ : Compilation)) = _
  rw [writtenCode, generated]
  exact map_written (.tuple codes) (Expr.tuple codes) _

/-- The kernel of a product is made as long as its components are few enough for their code. -/
theorem ofJob_product (positive : 1 ≤ s.dimension) (small : s.dimension ≤ 8) :
    ∃ codes, (Kernel.ofJob (productJob signature) ["a", "b"] "kernel" .builtin).outcome.1 = .ok (productKernel codes) ∧
      ComputesProduct s (.name "a") (.name "b") codes := by
  have differ : "a" ≠ "b" := by decide
  obtain ⟨codes, emitted, made, computes⟩ :=
    exists_codes positive differ rfl rfl (small.trans (by decide)) (.name "a") (.name "b") rfl rfl
  have laid := Layout.ofResult_ofMultivector (within_inputProduct (s := s) "a" "b")
  have inputs : ∀ c ∈ (Layout.ofMultivector (inputProduct s "a" "b")).components, ∀ name ∈ c.symbols,
      Text.isIdentifier name = true := by
    rw [components_inputProduct]
    intro c mem name symbol
    obtain ⟨blade, listed, rfl⟩ := List.mem_map.mp mem
    rcases symbols_inputProduct positive differ (mem_everyBlade.mp listed) symbol with rfl | rfl <;> rfl
  have shallow : (Expr.tuple codes).isShallow = true := by
    have few : s.size ≤ 256 := Nat.pow_le_pow_right Nat.two_pos small
    exact decide_eq_true (nestings_le_iff.mpr fun c mem => (made c mem).2.trans (by unfold maxNesting; omega))
  have writable : (Expr.tuple codes).isWritable = true :=
    (Expr.IsArithmetic.tuple fun c mem => (made c mem).1).isWritable
  have compiled := compiled_product signed emitted
  rw [written, shallow, writable] at compiled
  rw [← components_inputProduct] at emitted
  have function : compiledFunction signature (productJob signature).source ["a", "b"] "kernel" ⟨"flattened", none⟩
      .builtin = .ok (.function false "kernel" productParams none [] [.ret (some (.tuple codes))]) := by
    rw [compiledFunction, compiled]
    show ((generateFunction _ _ _ _).mapError Failure.code >>= _) = _
    rw [generateFunction_flattened laid inputs emitted]
    exact if_pos (isWritable_function rfl writable)
  refine ⟨codes, (Kernel.settles_ofJob _ _ _ _).outcome.trans ?_, computes⟩
  show (compiledFunction signature _ _ _ ⟨"flattened", none⟩ _ >>= _) = _
  rw [function]
  rfl

/-- From nine dimensions on the code of the product is too deep to be written. -/
theorem ofJob_product_deep (large : 9 ≤ s.dimension) (small : s.dimension ≤ 12) :
    (Kernel.ofJob (productJob signature) ["a", "b"] "kernel" .builtin).outcome.1 = .error (.code .tooDeep) := by
  have differ : "a" ≠ "b" := by decide
  have positive : 1 ≤ s.dimension := large.trans' (by decide)
  obtain ⟨codes, emitted, -⟩ := exists_codes positive differ rfl rfl small (.name "a") (.name "b") rfl rfl
  have deep : (Expr.tuple codes).isShallow = false := by
    have long := size_le_nestings positive differ emitted
    have many : 512 ≤ s.size := Nat.pow_le_pow_right Nat.two_pos large
    refine decide_eq_false (Nat.not_le.mpr (show maxNesting < nestings codes from ?_))
    unfold maxNesting
    omega
  have compiled := compiled_product signed emitted
  rw [written, deep] at compiled
  refine (Kernel.settles_ofJob _ _ _ _).outcome.trans ?_
  show (compiledFunction signature _ _ _ ⟨"flattened", none⟩ _ >>= _) = _
  rw [compiledFunction, compiled]
  rfl

end

/-! ### Calls of the kernel -/

section

variable {codes : List Expr} {u v : Value}

def productScope (u v : Value) : Scope := [("a", some u), ("b", some v)]

theorem call_productKernel {values : List Value}
    (each : List.Forall₂ (fun c x => Host.evaluate (productKernel codes).environment
      (callWithin (productKernel codes).environment 999) (productScope u v) c = .ok x) codes values) :
    (productKernel codes).call [u, v] = .ok (.tuple values) := by
  show (do return Value.tuple (← evaluateAll (productKernel codes).environment
    (callWithin (productKernel codes).environment 999) (productScope u v) codes)) = _
  rw [evaluateAll_ok each]
  rfl

theorem evaluate_readCode {name : String} {x : Value} {values : List Value}
    (bound : (productScope u v).lookup name = some (some x)) (holds : x.Holds values) {i : Nat} {y : Value}
    (placed : values[i]? = some y) :
    Host.evaluate (productKernel codes).environment (callWithin (productKernel codes).environment 999)
      (productScope u v) (readCode (.name name) i) = .ok y := by
  have input : (productKernel codes).environment.lookup (productScope u v) name = .ok x := by
    simp only [Environment.lookup, bound]
    rfl
  have routine : (productKernel codes).environment.lookup (productScope u v) "getcomponent" =
      .ok (.routine .getComponent) := rfl
  have given : Host.evaluateAll (productKernel codes).environment (callWithin (productKernel codes).environment 999)
      (productScope u v) [.name name, .int i] = .ok [x, .int i] := evaluateAll_ok (.cons input (.cons rfl .nil))
  simp only [readCode, Expr.apply, Host.evaluate, routine, given, evaluateKeywords]
  exact holds.component placed

variable {α : Type} [CommRing α] {inject : α → Value}

theorem interprets_evaluate (acts : ActsAs inject) (env : Environment) (call : Caller) (scope : Scope) :
    Interprets fun _ c x => Host.evaluate env call scope c = .ok (inject x) where
  deeper value _ := value
  minus operand := by
    rw [Host.evaluate, operand]
    exact acts.minus _
  add left right := (evaluate_binary left right).trans (acts.add _ _)
  sub left right := (evaluate_binary left right).trans (acts.sub _ _)
  mul left right := (evaluate_binary left right).trans (acts.mul _ _)

theorem call_computesProduct {s : Signature} (computes : ComputesProduct s (.name "a") (.name "b") codes)
    (acts : ActsAs inject) {a b : List α} (complete : a.length = s.size) (complete' : b.length = s.size)
    (left : u.Holds (a.map inject)) (right : v.Holds (b.map inject)) :
    (productKernel codes).call [u, v] = .ok (.tuple ((Terms.productComponents s a b).map inject)) := by
  have placed {c : List α} (complete : c.length = s.size) {i : Nat} (inside : i < s.size) :
      (c.map inject)[i]? = some (inject (c.getD i 0)) := by
    rw [List.getElem?_map, getElem?_eq_some_getD (complete ▸ inside)]
    rfl
  refine call_productKernel (List.forall₂_map_right_iff.mpr ?_)
  refine computes (interprets_evaluate acts _ _ (productScope u v)) complete complete' ?_ ?_
  · exact fun i inside => evaluate_readCode rfl left (placed complete inside)
  · exact fun i inside => evaluate_readCode rfl right (placed complete' inside)

end

end Code

end Bladewright
