import Bladewright.Proofs.Code.Nested
import Bladewright.Proofs.Coeff.Readings
import Bladewright.Proofs.Host.Parts

/-!
The values of generated code where host arithmetic is exact. The host evaluates what is no arithmetic, and it finds
for sums, products and powers the numbers that exact arithmetic gives (`Place.Exact`).
-/
namespace Bladewright

open List

namespace Host

def componentCode (e : Expr) : Option Nat → Expr
  | none => .apply "getcomponent" [e]
  | some i => .apply "getcomponent" [e, .int i]

namespace Place

def numberOf (p : Place) (number : Value → Option ℚ) (e : Expr) : Option ℚ := (p.value e).toOption.bind number

/-- What exact arithmetic takes from the host, given what numbers values are. -/
def readings (p : Place) (number : Value → Option ℚ) : Readings where
  leaf := p.numberOf number
  component e i := p.numberOf number (componentCode e i)

def Exact (p : Place) (number : Value → Option ℚ) (e : Expr) : Prop :=
  ∀ x, (p.readings number).eval e = some x → p.numberOf number e = some x

variable {p q : Place} {number : Value → Option ℚ}

variable {e : Expr}

theorem of_numberOf {x : ℚ} (found : p.numberOf number e = some x) : ∃ v, p.value e = .ok v ∧ number v = some x := by
  obtain ⟨v, valued, found⟩ := Option.bind_eq_some_iff.mp found
  cases value : p.value e with
  | error fault =>
    rw [value] at valued
    cases valued
  | ok w =>
    rw [value] at valued
    cases valued
    exact ⟨v, rfl, found⟩

theorem evaluateAll_cons {env : Environment} {call : Caller} {scope : Scope} (single : ∀ e', e ≠ .starred e')
    (es : List Expr) : evaluateAll env call scope (e :: es) =
      evaluate env call scope e >>= fun v => evaluateAll env call scope es >>= fun vs => pure (v :: vs) := by
  rw [evaluateAll]
  exact single

theorem value_componentCode (contractual : p.KeepsContract) (single : ∀ e', e ≠ .starred e')
    (i : Option Nat) : p.value (componentCode e i) = p.value e >>= fun v => match i with
      | none => v.scalarComponent
      | some i => v.component (.int i) := by
  obtain ⟨depth, calls⟩ := contractual.calls
  have routine : p.env.lookup p.scope "getcomponent" = .ok (.routine .getComponent) :=
    contractual.names ("getcomponent", .routine .getComponent) (by simp [Environment.contract])
  cases i with
  | none =>
    simp only [componentCode, value, Expr.apply, evaluate, routine, evaluateAll_cons single, evaluateKeywords, calls]
    cases evaluate p.env (callWithin p.env (depth + 2)) p.scope e <;> rfl
  | some i =>
    simp only [componentCode, value, Expr.apply, evaluate, routine, evaluateAll_cons single, evaluateKeywords, calls]
    cases evaluate p.env (callWithin p.env (depth + 2)) p.scope e <;> rfl

theorem component_congr (contractual : p.KeepsContract) (contractual' : q.KeepsContract) {e' : Expr}
    (single : ∀ a, e ≠ .starred a) (single' : ∀ a, e' ≠ .starred a) (same : q.value e' = p.value e) (i : Option Nat) :
    (q.readings number).component e' i = (p.readings number).component e i := by
  show (q.value _).toOption.bind number = (p.value _).toOption.bind number
  rw [value_componentCode contractual single, value_componentCode contractual' single', same]

end Place

end Host

namespace Code

open Host Coeff

/-- The values of the components of a layout, grade by grade. -/
def Amounts (r : Readings) (l : Layout) (amounts : List (Int × List ℚ)) : Prop :=
  List.Forall₂ (fun part amount => part.1 = amount.1 ∧ List.Forall₂ (HasValue r) part.2 amount.2) l.grades amounts

def AreNumbers (number : Value → Option ℚ) (groups : List (Int × List Value)) (amounts : List (Int × List ℚ)) : Prop :=
  List.Forall₂ (fun group amount => group.1 = amount.1 ∧ List.Forall₂ (fun v x => number v = some x) group.2 amount.2)
    groups amounts

def outputValue (n : Nat) : Mode → List (Int × List Value) → Value
  | .flattened, groups => .tuple (groups.flatMap (·.2))
  | .nested, groups => match groups.map fun group => Value.kvector group.1 n group.2 with
    | [object] => object
    | objects => .tuple objects

/-- Every grade of a layout exists and has all its components. -/
def IsFull (l : Layout) : Prop :=
  ∀ part ∈ l.grades, (0 ≤ part.1 ∧ part.1 ≤ l.dimension) ∧ part.2.length = l.dimension.choose part.1.toNat

variable {p : Place} {number : Value → Option ℚ}

theorem values_emitAll {components : List Coeff} {elements : List Expr} (emitted : emitAll components = .ok elements)
    (exactly : ∀ e ∈ elements, p.Exact number e) {xs : List ℚ}
    (valued : List.Forall₂ (HasValue (p.readings number)) components xs) :
    ∃ vs, List.Forall₂ (fun e v => p.value e = .ok v) elements vs ∧
      List.Forall₂ (fun v x => number v = some x) vs xs := by
  have each := Outcome.of_mapM emitted
  clear emitted
  induction valued generalizing elements with
  | nil =>
    cases each
    exact ⟨[], .nil, .nil⟩
  | cons first _ ih =>
    obtain _ | ⟨found, rest⟩ := each
    rw [forall_mem_cons] at exactly
    obtain ⟨v, value, same⟩ := Place.of_numberOf (exactly.1 _ (first.eval_emit (Outcome.of_mapError found)))
    obtain ⟨vs, values, numbers⟩ := ih exactly.2 rest
    exact ⟨v :: vs, .cons value values, .cons same numbers⟩

variable {amounts : List (Int × List ℚ)} {groups : List (Int × List Expr)} {l : Layout} {e : Expr} {es : List Expr}

theorem values_emitGrades (emitted : emitGrades l = .ok groups)
    (exactly : ∀ group ∈ groups, ∀ e ∈ group.2, p.Exact number e)
    (valued : Amounts (p.readings number) l amounts) :
    ∃ values, List.Forall₂ (fun group result => group.1 = result.1 ∧
        List.Forall₂ (fun e v => p.value e = .ok v) group.2 result.2) groups values ∧
      AreNumbers number values amounts := by
  obtain ⟨n, grades⟩ := l
  dsimp only [Amounts] at valued
  have each := Outcome.of_mapM emitted
  clear emitted
  induction valued generalizing groups with
  | nil =>
    cases each
    exact ⟨[], .nil, .nil⟩
  | @cons part amount _ _ first _ ih =>
    obtain _ | ⟨found, rest⟩ := each
    obtain ⟨elements, codes, rfl⟩ := Outcome.of_map found
    rw [forall_mem_cons] at exactly
    obtain ⟨vs, values, numbers⟩ := values_emitAll codes exactly.1 first.2
    obtain ⟨results, others, amounts⟩ := ih exactly.2 rest
    exact ⟨(part.1, vs) :: results, .cons ⟨rfl, values⟩ others, .cons ⟨first.1, numbers⟩ amounts⟩

theorem isPart_tuple (mem : e ∈ es) : e.IsPart (.tuple es) := .child mem .self

theorem isPart_construct {type : Expr} (mem : e ∈ es) : e.IsPart (construct type es) := by
  refine .child (c := .tuple es) ?_ (isPart_tuple mem)
  simp [construct, Expr.apply, Expr.children]

theorem isPart_nestedCode (n : Nat) {group : Int × List Expr} (listed : group ∈ groups)
    (mem : e ∈ group.2) : e.IsPart (nestedCode n groups) := by
  have part : e.IsPart (construct (kvectorType group.1 n) group.2) := isPart_construct mem
  have object : construct (kvectorType group.1 n) group.2 ∈ groups.map fun g => construct (kvectorType g.1 n) g.2 :=
    mem_map_of_mem listed
  unfold nestedCode
  split
  · rename_i only
    rw [only, mem_singleton] at object
    rwa [← object]
  · exact .child object part

/-- Where host arithmetic is exact on the code of a layout, the code makes an output of the values of the components. -/
theorem value_build (contractual : p.KeepsContract) (full : IsFull l)
    (valued : Amounts (p.readings number) l amounts) {mode : Mode} {code : Expr} (built : build l mode none = .ok code)
    (exactly : ∀ e, e.IsPart code → p.Exact number e) :
    ∃ groups, p.value code = .ok (outputValue l.dimension mode groups) ∧ AreNumbers number groups amounts := by
  cases mode with
  | flattened =>
    rw [build_flattened] at built
    obtain ⟨codes, emitted, rfl⟩ := Outcome.of_map built
    obtain ⟨groups, values, numbers⟩ := values_emitGrades emitted (fun group listed e mem =>
      exactly e (isPart_tuple (mem_flatMap.mpr ⟨group, listed, mem⟩))) valued
    have all : List.Forall₂ (fun e v => p.value e = .ok v) (codes.flatMap (·.2)) (groups.flatMap (·.2)) :=
      rel_flatMap values fun _ _ both => both.2
    exact ⟨groups, Place.value_tuple all, numbers⟩
  | nested =>
    rw [build_nested] at built
    obtain ⟨codes, emitted, rfl⟩ := Outcome.of_map built
    obtain ⟨groups, values, numbers⟩ := values_emitGrades emitted (fun group listed e mem =>
      exactly e (isPart_nestedCode _ listed mem)) valued
    refine ⟨groups, ?_, numbers⟩
    have objects : List.Forall₂ (fun e v => p.value e = .ok v)
        (codes.map fun group => construct (kvectorType group.1 l.dimension) group.2)
        (groups.map fun group => Value.kvector group.1 l.dimension group.2) := by
      have sized : ∀ group ∈ codes, (0 ≤ group.1 ∧ group.1 ≤ l.dimension) ∧
          group.2.length = l.dimension.choose group.1.toNat := by
        intro group listed
        obtain ⟨part, mem, same, length⟩ := of_mem_emitGrades emitted listed
        rw [same, length]
        exact full part mem
      rw [forall₂_map_left_iff, forall₂_map_right_iff]
      refine ((forall₂_and_left codes groups).mpr ⟨sized, values⟩).imp fun group result both => ?_
      obtain ⟨⟨exist, complete⟩, same, each⟩ := both
      rw [← same]
      exact Place.value_construct contractual exist (each.length_eq.symm.trans complete) each
    rw [nestedCode, outputValue]
    generalize codes.map _ = es at objects ⊢
    generalize groups.map _ = vs at objects ⊢
    cases objects with
    | nil => rfl
    | cons first rest =>
      cases rest with
      | nil => exact first
      | cons second rest => exact Place.value_tuple (.cons first (.cons second rest))

end Code

end Bladewright
