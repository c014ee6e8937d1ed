import Bladewright.Proofs.Coeff.Meaning

/-!
Exact arithmetic on host code: sums, differences, products, quotients and whole powers of integers, of reads of
components, and of host expressions that the code does not look into. A quotient with denominator zero has no value.
-/
namespace Bladewright

namespace Host

/-- What host code is evaluated with: the values of the expressions that are no arithmetic, where they have one, and
the components of inputs. -/
structure Valuation where
  leaf : Expr → Option ℚ
  component : Expr → Option Nat → ℚ

namespace Valuation

def quotient (x y : ℚ) : Option ℚ := if y = 0 then none else some (x / y)

def power (x y : ℚ) : Option ℚ :=
  if y.den = 1 then (if y < 0 ∧ x = 0 then none else some (x ^ y.num)) else none

/-- The value of an expression in exact arithmetic, if it has one. -/
def eval (v : Valuation) : Expr → Option ℚ
  | .literal (.int n) => some n
  | .literal _ => none
  | .unary .minus e => (v.eval e).map (- ·)
  | .binary .add a b => do return (← v.eval a) + (← v.eval b)
  | .binary .sub a b => do return (← v.eval a) - (← v.eval b)
  | .binary .mul a b => do return (← v.eval a) * (← v.eval b)
  | .binary .div a b => do quotient (← v.eval a) (← v.eval b)
  | .binary .pow a b => do power (← v.eval a) (← v.eval b)
  | .call (.name "getcomponent") [e] [] => some (v.component e none)
  | .call (.name "getcomponent") [e, .literal (.int i)] [] => some (v.component e (some i.toNat))
  | e => v.leaf e

def evalTuple (v : Valuation) : Expr → Option (List ℚ)
  | .tuple elements => elements.mapM v.eval
  | _ => none

theorem eval_int (v : Valuation) (n : ℤ) : v.eval (.int n) = some (n : ℚ) := rfl

variable {v : Valuation} {a b : Expr} {x y : ℚ}

theorem eval_minus (operand : v.eval a = some x) : v.eval (.unary .minus a) = some (-x) := by
  rw [eval, operand]
  rfl

theorem eval_add (left : v.eval a = some x) (right : v.eval b = some y) :
    v.eval (.binary .add a b) = some (x + y) := by
  rw [eval, left, right]
  rfl

theorem eval_sub (left : v.eval a = some x) (right : v.eval b = some y) :
    v.eval (.binary .sub a b) = some (x - y) := by
  rw [eval, left, right]
  rfl

theorem eval_mul (left : v.eval a = some x) (right : v.eval b = some y) :
    v.eval (.binary .mul a b) = some (x * y) := by
  rw [eval, left, right]
  rfl

theorem eval_div (left : v.eval a = some x) (right : v.eval b = some y) (nonzero : y ≠ 0) :
    v.eval (.binary .div a b) = some (x / y) := by
  rw [eval, left, right]
  exact if_neg nonzero

theorem eval_pow {n : ℤ} (left : v.eval a = some x) (right : v.eval b = some (n : ℚ)) (nonneg : 0 ≤ n) :
    v.eval (.binary .pow a b) = some (x ^ n) := by
  rw [eval, left, right]
  show power x n = some (x ^ n)
  have whole : ¬ ((n : ℚ) < 0 ∧ x = 0) := fun both => absurd both.1 (by simpa using nonneg)
  rw [power, if_pos (Rat.den_intCast n), if_neg whole, Rat.num_intCast]

end Valuation

end Host

open Host

/-- Numbers for the host inputs of a program, and a valuation that has them: a host scalar with a number
evaluates to it wherever its source is an expression, and so do components. -/
structure Inputs where
  reading : Reading
  valuation : Valuation
  scalar_eq {source : String} {e : Expr} {x : ℚ} : reading.scalar source = some x → Expr.read source = .ok e →
    valuation.eval e = some x
  component_eq {source : String} {e : Expr} (i : Option Nat) : Expr.read source = .ok e →
    valuation.component e i = reading.component source i

def Host.Valuation.inputs (v : Valuation) : Inputs where
  reading :=
    { scalar := fun source => match Expr.read source with
        | .ok e => v.eval e
        | .error _ => none
      component := fun source i => match Expr.read source with
        | .ok e => v.component e i
        | .error _ => 0 }
  valuation := v
  scalar_eq := by
    intro source e x number read
    simpa only [read] using number
  component_eq := by
    intro source e i read
    simp only [read]

end Bladewright
