import Bladewright.Proofs.Coeff.EmitAnswers

/-!
Formulas: sums, products and whole powers of exact numbers, names and reads of components.
-/
namespace Bladewright

open List Host Outcome

/-- Arithmetic on exact numbers, names and reads of components. -/
inductive Formula where
  | number (q : ℚ)
  | scalar (s : String)
  | component (s : String) (i : Option Nat)
  | sum (terms : List Formula)
  | product (factors : List Formula)
  | power (base : Formula) (n : ℤ)

namespace Formula

def evaluated : Formula → Coeff
  | number q => .num (.exact q)
  | scalar s => .sym s
  | component s none => .app "getcomponent" [.sym s]
  | component s (some i) => .app "getcomponent" [.sym s, Coeff.ofInt i]
  | sum terms => Coeff.addAll (terms.map evaluated)
  | product factors => Coeff.mulAll (factors.map evaluated)
  | power base n => Coeff.raise base.evaluated (Coeff.ofInt n)

def names : Formula → List String
  | number _ => []
  | scalar s | component s _ => [s]
  | sum terms => terms.flatMap names
  | product factors => factors.flatMap names
  | power base _ => base.names

def value (r : Reading) : Formula → ℚ
  | number q => q
  | scalar s => (r.scalar s).getD 0
  | component s i => r.component s i
  | sum terms => (terms.map (value r)).sum
  | product factors => (factors.map (value r)).prod
  | power base n => base.value r ^ n

/-- Every name has a number, and no negative power has a base that vanishes. -/
def Proper (r : Reading) : Formula → Prop
  | number _ | component .. => True
  | scalar s => (r.scalar s).isSome
  | sum terms => ∀ t ∈ terms, t.Proper r
  | product factors => ∀ f ∈ factors, f.Proper r
  | power base n => base.Proper r ∧ (n < 0 → base.value r ≠ 0)

open Coeff

theorem canonical {named : String → Prop} : ∀ f : Formula, (∀ s ∈ f.names, named s) →
    ∃ k, Canonical named k f.evaluated
  | number q, _ => by
    rw [evaluated]
    exact ⟨0, .num trivial⟩
  | scalar s, all => by
    rw [evaluated]
    exact ⟨0, .sym (all s (by simp [names]))⟩
  | component s none, all => by
    rw [evaluated]
    exact ⟨0, .only (all s (by simp [names]))⟩
  | component s (some i), all => by
    rw [evaluated]
    exact ⟨0, .component (all s (by simp [names])) i⟩
  | sum terms, all => by
    rw [names, forall_mem_flatMap] at all
    obtain ⟨k, each⟩ := exists_level (forall_mem_map.mpr fun t mem => canonical t (all t mem))
    rw [evaluated]
    exact ⟨k + 1, (additive_addAll fun e mem => .inl (each e mem)).canonical⟩
  | product factors, all => by
    rw [names, forall_mem_flatMap] at all
    obtain ⟨k, each⟩ := exists_level (forall_mem_map.mpr fun f mem => canonical f (all f mem))
    rw [evaluated]
    exact ⟨k, canonical_mulAll each⟩
  | power base n, all => by
    rw [names] at all
    obtain ⟨k, below⟩ := canonical base all
    rw [evaluated]
    exact ⟨k, canonical_raise below n⟩

theorem means {r : Reading} : ∀ f : Formula, f.Proper r → Means r f.evaluated (f.value r)
  | number q, _ => by
    rw [evaluated, value]
    exact means_num q
  | scalar s, proper => by
    rw [Proper] at proper
    rw [evaluated, value]
    exact ⟨.sym proper, rfl⟩
  | component s none, _ => by
    rw [evaluated, value]
    exact ⟨.only s, rfl⟩
  | component s (some i), _ => by
    rw [evaluated, value]
    exact ⟨.component s i, rfl⟩
  | sum terms, proper => by
    rw [Proper] at proper
    have each : ∀ t ∈ terms, Means r t.evaluated (t.value r) := fun t mem => means t (proper t mem)
    have whole := means_addAll (forall_mem_map.mpr fun t mem => (each t mem).defined)
    rw [evaluated, value]
    refine ⟨whole.defined, whole.value_eq.trans ?_⟩
    rw [total, map_map]
    exact congrArg List.sum (map_congr_left fun t mem => (each t mem).value_eq)
  | product factors, proper => by
    rw [Proper] at proper
    have each : ∀ f ∈ factors, Means r f.evaluated (f.value r) := fun f mem => means f (proper f mem)
    have whole := means_mulAll (forall_mem_map.mpr fun f mem => (each f mem).defined)
    rw [evaluated, value]
    refine ⟨whole.defined, whole.value_eq.trans ?_⟩
    rw [Coeff.product, map_map]
    exact congrArg List.prod (map_congr_left fun f mem => (each f mem).value_eq)
  | power base n, proper => by
    rw [Proper] at proper
    have below := means base proper.1
    have power := means_raise below.defined fun negative => below.value_eq ▸ proper.2 negative
    rw [evaluated, value]
    rwa [below.value_eq] at power

/-- What a formula is evaluated to has code, unless a name of the formula that is left in it is no expression or a number
in it is not finite. For all inputs under which it has a value, its code computes this value, and where no negative
power of the formula has a base that vanishes, it has the value of the formula. -/
theorem emit_evaluated (f : Formula) :
    FailsOnly (Refused fun s => s ∈ f.names ∧ s ∈ f.evaluated.symbols) f.evaluated.emit ∧
    (∀ inputs : Inputs, Defined inputs.reading f.evaluated →
      (∀ s ∈ f.names, s ∈ f.evaluated.symbols → ∃ c, Expr.read s = .ok c) →
      ∃ c, f.evaluated.emit = .ok c ∧ inputs.valuation.eval c = some (f.evaluated.value inputs.reading)) ∧
    ∀ r : Reading, f.Proper r → Means r f.evaluated (f.value r) := by
  obtain ⟨k, canonical⟩ := f.canonical fun s mem => mem
  have answers : FailsOnly (Refused fun s => s ∈ f.names ∧ s ∈ f.evaluated.symbols) f.evaluated.emit :=
    (canonical.relabel fun _ left own => ⟨own, left⟩).failsOnly_emit
  refine ⟨answers, fun inputs defined readable => ?_, fun r => f.means⟩
  have finite : FailsOnly RefusesNoExact f.evaluated.emit := defined.failsOnly _
  cases emitted : f.evaluated.emit with
  | ok c => exact ⟨c, rfl, eval_emit defined emitted⟩
  | error error =>
    rw [emitted] at answers finite
    cases answers with
    | malformed named unreadable =>
      obtain ⟨c, read⟩ := readable _ named.1 named.2
      cases unreadable.symm.trans read
    | infinite _ inexact => exact absurd (finite _ rfl) inexact

def quotientOfSum : Formula :=
  product [number (3 / 2), power (sum [scalar "x", product [number (-2), component "v" (some 1)]]) (-2),
    power (scalar "x") (-1)]

def threeAndFives : Valuation where
  leaf
    | .name "x" => some 3
    | _ => none
  component _ _ := 5

theorem emit_quotientOfSum : quotientOfSum.Proper threeAndFives.inputs.reading ∧
    ∃ c, quotientOfSum.evaluated.emit = .ok c ∧ threeAndFives.eval c = some (1 / 98) := by
  have name : threeAndFives.inputs.reading.scalar "x" = some 3 := by decide +kernel
  have read : threeAndFives.inputs.reading.component "v" (some 1) = 5 := by decide +kernel
  have listed : quotientOfSum.names = ["x", "v", "x"] := by simp [quotientOfSum, names]
  have readable : ∀ s ∈ ["x", "v", "x"], (Expr.read s).toOption.isSome := by decide +kernel
  have value : quotientOfSum.value threeAndFives.inputs.reading = 1 / 98 := by
    norm_num [quotientOfSum, value, name, read]
  have proper : quotientOfSum.Proper threeAndFives.inputs.reading := by
    norm_num [quotientOfSum, Proper, Formula.value, name, read]
  obtain ⟨-, computes, means⟩ := emit_evaluated quotientOfSum
  have whole := means _ proper
  obtain ⟨c, emitted, evaluates⟩ := computes threeAndFives.inputs whole.defined fun s named _ => by
    obtain ⟨c, found⟩ := Option.isSome_iff_exists.mp (readable s (listed ▸ named))
    exact ⟨c, of_toOption found⟩
  refine ⟨proper, c, emitted, ?_⟩
  rw [← value, ← whole.value_eq]
  exact evaluates

end Formula

end Bladewright
