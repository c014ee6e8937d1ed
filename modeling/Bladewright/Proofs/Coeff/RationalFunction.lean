import Bladewright.Coeff.Arithmetic
import Bladewright.Proofs.Algebra.Related
import Bladewright.Proofs.Coeff.Expand
import Mathlib.Algebra.CharZero.Infinite
import Mathlib.Algebra.MvPolynomial.Funext
import Mathlib.RingTheory.Localization.FractionRing
import Mathlib.Tactic.FieldSimp

/-!
Coefficients as rational functions of the host inputs.
-/
namespace Bladewright

/-- The host inputs that numbers are given for. -/
inductive Variable where
  | scalar (source : String)
  | component (source : String) (index : Option Nat)
deriving DecidableEq

abbrev Polynomials : Type := MvPolynomial Variable ℚ

-- found once, so that all statements about quotients share it
instance : NoZeroDivisors Polynomials := inferInstance

abbrev Functions : Type := FractionRing Polynomials

def Reading.ofPoint (point : Variable → ℚ) : Reading where
  scalar source := some (point (.scalar source))
  component source index := point (.component source index)

namespace Coeff

open MvPolynomial (eval)

noncomputable def quotient (n d : Polynomials) : Functions :=
  algebraMap Polynomials Functions n / algebraMap Polynomials Functions d

/-- A coefficient has the values of a rational function: of some quotient that is equal to it, wherever the denominator
does not vanish. -/
def Represents (c : Coeff) (f : Functions) : Prop :=
  ∃ n d : Polynomials, d ≠ 0 ∧ f = quotient n d ∧
    ∀ point, eval point d ≠ 0 → Means (Reading.ofPoint point) c (eval point n / eval point d)

theorem algebraMap_ne_zero {d : Polynomials} (nonzero : d ≠ 0) : algebraMap Polynomials Functions d ≠ 0 :=
  (map_ne_zero_iff _ (IsFractionRing.injective Polynomials Functions)).mpr nonzero

theorem eq_zero_of_eval {p d : Polynomials} (nonzero : d ≠ 0)
    (vanishes : ∀ point, eval point d ≠ 0 → eval point p = 0) : p = 0 := by
  have product : p * d = 0 := by
    refine MvPolynomial.funext fun point => ?_
    rw [map_mul, map_zero]
    by_cases zero : eval point d = 0
    · rw [zero, mul_zero]
    · rw [vanishes point zero, zero_mul]
  exact (mul_eq_zero.mp product).resolve_right nonzero

namespace Represents

variable {a b c : Coeff} {f g : Functions}

theorem unique (first : Represents c f) (second : Represents c g) : f = g := by
  obtain ⟨n, d, nonzero, rfl, value⟩ := first
  obtain ⟨m, e, nonzero', rfl, value'⟩ := second
  have cross : n * e - m * d = 0 := by
    refine eq_zero_of_eval (mul_ne_zero nonzero nonzero') fun point defined => ?_
    rw [map_mul] at defined
    have left := left_ne_zero_of_mul defined
    have right := right_ne_zero_of_mul defined
    have same : eval point n / eval point d = eval point m / eval point e :=
      (value point left).value_eq.symm.trans (value' point right).value_eq
    rw [div_eq_div_iff left right] at same
    rw [map_sub, map_mul, map_mul, same, sub_self]
  rw [quotient, quotient, div_eq_div_iff (algebraMap_ne_zero nonzero) (algebraMap_ne_zero nonzero'), ← map_mul,
    ← map_mul, sub_eq_zero.mp cross]

/-- A coefficient that represents zero has the value zero at some point at which another coefficient has a value. -/
theorem exists_point (zero : Represents a 0) (other : Represents b g) :
    ∃ point, Means (.ofPoint point) a 0 ∧ Defined (.ofPoint point) b := by
  obtain ⟨n, d, nonzero, vanishes, value⟩ := zero
  obtain ⟨m, e, nonzero', -, value'⟩ := other
  have above : n = 0 := by
    rw [quotient, eq_comm, div_eq_zero_iff, or_iff_left (algebraMap_ne_zero nonzero)] at vanishes
    exact (map_eq_zero_iff _ (IsFractionRing.injective Polynomials Functions)).mp vanishes
  -- the product of the denominators does not vanish everywhere
  by_contra nowhere
  refine one_ne_zero (eq_zero_of_eval (mul_ne_zero nonzero nonzero') fun point defined => ?_)
  rw [map_mul] at defined
  have means := value point (left_ne_zero_of_mul defined)
  rw [above, map_zero, zero_div] at means
  exact absurd ⟨point, means, (value' point (right_ne_zero_of_mul defined)).defined⟩ nowhere

theorem number (q : ℚ) : Represents (num (.exact q)) (algebraMap Polynomials Functions (.C q)) := by
  refine ⟨.C q, 1, one_ne_zero, ?_, fun point _ => ?_⟩
  · rw [quotient, map_one, div_one]
  · simpa using means_num q

theorem input {v : Variable} (read : ∀ point, Means (.ofPoint point) c (point v)) :
    Represents c (algebraMap Polynomials Functions (.X v)) := by
  refine ⟨.X v, 1, one_ne_zero, ?_, fun point _ => ?_⟩
  · rw [quotient, map_one, div_one]
  · simpa using read point

theorem add (left : Represents a f) (right : Represents b g) : Represents (Coeff.add a b) (f + g) := by
  obtain ⟨n, d, nonzero, rfl, value⟩ := left
  obtain ⟨m, e, nonzero', rfl, value'⟩ := right
  refine ⟨n * e + d * m, d * e, mul_ne_zero nonzero nonzero', ?_, fun point defined => ?_⟩
  · rw [quotient, quotient, quotient, div_add_div _ _ (algebraMap_ne_zero nonzero) (algebraMap_ne_zero nonzero')]
    simp only [map_add, map_mul]
  · rw [map_mul] at defined
    have sum := (value point (left_ne_zero_of_mul defined)).add (value' point (right_ne_zero_of_mul defined))
    rw [div_add_div _ _ (left_ne_zero_of_mul defined) (right_ne_zero_of_mul defined)] at sum
    simpa only [map_add, map_mul] using sum

theorem mul (left : Represents a f) (right : Represents b g) : Represents (Coeff.mul a b) (f * g) := by
  obtain ⟨n, d, nonzero, rfl, value⟩ := left
  obtain ⟨m, e, nonzero', rfl, value'⟩ := right
  refine ⟨n * m, d * e, mul_ne_zero nonzero nonzero', ?_, fun point defined => ?_⟩
  · rw [quotient, quotient, quotient, div_mul_div_comm, map_mul, map_mul]
  · rw [map_mul] at defined
    have product := (value point (left_ne_zero_of_mul defined)).mul (value' point (right_ne_zero_of_mul defined))
    rw [div_mul_div_comm] at product
    simpa only [map_mul] using product

theorem neg (operand : Represents a f) : Represents (Coeff.neg a) (-f) := by
  obtain ⟨n, d, nonzero, rfl, value⟩ := operand
  refine ⟨-n, d, nonzero, ?_, fun point defined => ?_⟩
  · rw [quotient, quotient, map_neg, neg_div]
  · rw [map_neg, neg_div]
    exact (value point defined).neg

theorem expand (operand : Represents a f) : Represents (Coeff.expand a) f := by
  obtain ⟨n, d, nonzero, rfl, value⟩ := operand
  exact ⟨n, d, nonzero, rfl, fun point defined => (value point defined).expand⟩

/-- A coefficient that represents any function but zero has an inverse that represents the inverse function. -/
theorem inv (operand : Represents a f) (nonzero : f ≠ 0) : Represents (Coeff.inv a) f⁻¹ := by
  obtain ⟨n, d, below, rfl, value⟩ := operand
  have above : n ≠ 0 := by
    rintro rfl
    exact nonzero (by rw [quotient, map_zero, zero_div])
  -- the denominator is kept as a factor, since the value is known only where it does not vanish
  refine ⟨d * d, n * d, mul_ne_zero above below, ?_, fun point defined => ?_⟩
  · rw [quotient, quotient, inv_div, map_mul, map_mul, mul_div_mul_right _ _ (algebraMap_ne_zero below)]
  · rw [map_mul] at defined
    have outside := right_ne_zero_of_mul defined
    have inverse := (value point outside).inv (div_ne_zero (left_ne_zero_of_mul defined) outside)
    rwa [inv_div, ← mul_div_mul_right _ _ outside, ← map_mul, ← map_mul] at inverse

end Represents

theorem represents_zero : Represents 0 0 := by
  have zero := Represents.number 0
  rwa [map_zero, map_zero, ← zero_eq] at zero

theorem represents_one : Represents 1 1 := by
  have one := Represents.number 1
  rwa [map_one, map_one, ← one_eq] at one

theorem Represents.eq_zero_of_isZero {c : Coeff} {f : Functions} (represents : Represents c f)
    (zero : c.isZero = true) : f = 0 := by
  cases c with
  | num q =>
    obtain rfl : q = 0 := eq_of_beq zero
    exact represents.unique represents_zero
  | _ => cases zero

theorem respects_represents : Terms.Respects Represents where
  add left right := left.add right
  mul left right := (left.mul right).expand
  neg operand := operand.neg

end Coeff

end Bladewright
