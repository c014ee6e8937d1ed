import Bladewright.Proofs.Code.Inputs
import Bladewright.Proofs.Coeff.PolynomialForm
import Bladewright.Proofs.Evaluation.Inverse

/-!
Trees that compute polynomials in the host inputs: they divide by number literals other than zero only, and no
exponent is negative.
-/
namespace Bladewright

open List Multivector

namespace Tree

/-- A literal of some kind, a division by a literal other than zero, a power with a natural exponent, or any other
node. -/
def IsWhole (N : Scalar → Prop) : Tree → Prop
  | literal v => N v
  | operation .scalarDivision args => ∃ a v, args = [a, literal v] ∧ v.isZero = false
  | operation .power args => ∃ a, ∃ k : Nat, args = [a, literal (.ofInt k)]
  | _ => True

/-- The tree computes a polynomial, with literals of some kind. -/
def IsPolynomial (N : Scalar → Prop) (t : Tree) : Prop := t.Every (IsWhole N)

end Tree

namespace Evaluation

open Terms (Related RelatedEntry Respects related_single)

section

variable {α β : Type} [Add α] [Mul α] [Neg α] [OfNat α 0] [OfNat α 1] [Add β] [Mul β] [Neg β] [OfNat β 0] [OfNat β 1]

/-- Two engines agree on literals of some kind and their inverses, and on the host inputs. -/
structure Corresponds (R : α → β → Prop) (N : Scalar → Prop) (E : Engine α) (F : Engine β) : Prop where
  laws : Respects R
  one : R 1 1
  integer (n : ℤ) : N (.ofInt n)
  number {v : Scalar} : N v → R (E.number v) (F.number v)
  input (source : String) : R (E.input source) (F.input source)
  component (source : String) (index : Option Nat) : R (E.component source index) (F.component source index)
  divisor {v : Scalar} : N v → v.isZero = false → F.isZero (F.normal (F.number v)) = false ∧
    R (E.inverse (E.normal (E.number v))) (F.inverse (F.normal (F.number v)))

def Engine.undivided (E : Engine α) : Engine α := { E with isZero := fun _ => true }

omit [Add α] [Neg α] [OfNat α 1] in
theorem divide_undivided (E : Engine α) (s : Signature) (A D : Terms α) :
    divide E.undivided s A D = .error .zeroDivisor := by
  simp [divide, Engine.undivided]
  rfl

theorem perform_undivided (E : Engine α) (s : Signature) {op : Op} (division : op ≠ .scalarDivision) (power : op ≠ .power)
    (args : List (Tree × Except (Error α) (Terms α))) : perform E.undivided s op args = perform E s op args := by
  unfold perform
  split
  all_goals first | rfl | contradiction

omit [Add α] [Neg α] [OfNat α 1] in
theorem divide_single (E : Engine α) (s : Signature) (A : Terms α) (c : α) :
    divide E s A (.single 0 c) = if E.isZero (E.normal c) then .error .zeroDivisor
      else .ok (A.scale (E.inverse (E.normal c))) := by
  simp [divide, Terms.single, Terms.coeff, Terms.get?]
  rfl

namespace Corresponds

variable {R : α → β → Prop} {N : Scalar → Prop} {E : Engine α} {F : Engine β} (agree : Corresponds R N E F)
include agree

theorem follows : Follows (fun _ => False) R E.undivided F.undivided where
  laws := agree.laws
  one := agree.one
  divide s A D B D' _ _ := by
    rw [divide_undivided E]
    exact .error

theorem divided (s : Signature) {v : Scalar} (known : N v) (nonzero : v.isZero = false) {A : Terms α} {B : Terms β}
    (related : Related R A B) : Mirrors (fun _ => False) (Related R) (divide E s A (.single 0 (E.number v)))
      (divide F s B (.single 0 (F.number v))) := by
  obtain ⟨accepted, inverses⟩ := agree.divisor known nonzero
  rw [divide_single E, divide_single F, accepted]
  split
  · exact .error
  · exact .pure (related.scale agree.laws inverses)

theorem raised (s : Signature) (k : Nat) {x : Except (Error α) (Terms α)} {y : Except (Error β) (Terms β)}
    (operand : Mirrors (fun _ => False) (Related R) x y) :
    Mirrors (fun _ => False) (Related R) (do integerPower E s (← x) k) (do integerPower F s (← y) k) :=
  operand.bind fun _ _ related => .pure (agree.follows.naturalPower s related k)

end Corresponds

mutual

theorem Corresponds.mirrors {R : α → β → Prop} {N : Scalar → Prop} {E : Engine α} {F : Engine β}
    (agree : Corresponds R N E F) (s : Signature) : ∀ t : Tree, t.IsPolynomial N →
    Mirrors (fun _ => False) (Related R) (evaluate E s t) (evaluate F s t)
  | .literal v, whole => .pure (related_single 0 (agree.number ((Tree.every_of_leaf rfl).mp whole)))
  | .host source, _ => .pure (related_single 0 (agree.input source))
  | .blade factors, _ => mirrors_bladeTerms (fun n => agree.number (agree.integer n)) s factors
  | .typed operand spec, whole => by
    by_cases input : ∃ source, operand = .host source
    · obtain ⟨source, rfl⟩ := input
      refine (mirrors_checkedGrades s spec).bind fun grades _ same => ?_
      subst same
      exact .pure (related_inputTerms (agree.component source) s.dimension grades)
    · have noInput : ∀ source, operand ≠ .host source := fun source same => input ⟨source, same⟩
      exact mirrors_typed s spec noInput noInput (agree.mirrors s operand (Tree.every_typed.mp whole).2)
  | .operation op args, whole => by
    obtain ⟨node, inside⟩ := Tree.every_operation.mp whole
    have operands := agree.mirrorsEach s args inside
    by_cases division : op = .scalarDivision
    · subst division
      obtain ⟨a, v, rfl, nonzero⟩ := node
      obtain ⟨numerator, -⟩ := forall₂_cons.mp operands
      have known : N v := (Tree.every_of_leaf rfl).mp (inside (.literal v) (by simp))
      exact numerator.bind fun _ _ related => agree.divided s known nonzero related
    · by_cases power : op = .power
      · subst power
        obtain ⟨a, k, rfl⟩ := node
        obtain ⟨base, -⟩ := forall₂_cons.mp operands
        show Mirrors _ _ (integerOf .exponent (.literal (.ofInt k)) >>= fun n => do integerPower E s (← evaluate E s a) n)
          (integerOf .exponent (.literal (.ofInt k)) >>= fun n => do integerPower F s (← evaluate F s a) n)
        rw [integerOf_integer, integerOf_integer]
        exact agree.raised s k base
      · have performed := agree.follows.performed s op operands fun _ => mirrors_second s args
        rwa [perform_undivided E s division power, perform_undivided F s division power] at performed
  | .symbol _, _ => .error
  | .call _ _, _ => .error
  | .argument _, _ => .error
  | .unknown, _ => .error

theorem Corresponds.mirrorsEach {R : α → β → Prop} {N : Scalar → Prop} {E : Engine α} {F : Engine β}
    (agree : Corresponds R N E F) (s : Signature) : ∀ ts : List Tree, (∀ t ∈ ts, t.IsPolynomial N) →
    List.Forall₂ (fun x y => Mirrors (fun _ => False) (Related R) x.2 y.2) (evaluateEach E s ts) (evaluateEach F s ts)
  | [], _ => .nil
  | t :: ts, whole => by
    rw [forall_mem_cons] at whole
    exact .cons (agree.mirrors s t whole.1) (agree.mirrorsEach s ts whole.2)

end

theorem Corresponds.evaluated {R : α → β → Prop} {N : Scalar → Prop} {E : Engine α} {F : Engine β}
    (agree : Corresponds R N E F) {s : Signature} {t : Tree} (whole : t.IsPolynomial N) {A : Terms α}
    (evaluated : evaluate E s t = .ok A) : ∃ B, evaluate F s t = .ok B ∧ Related R A B := by
  rcases agree.mirrors s t whole A evaluated with ⟨_, _, excused⟩ | found
  · exact excused.elim
  · exact found

end

open Coeff Terms

/-! ### Expanded coefficients -/

theorem isPolynomial_inverse {v : Scalar} (proper : v.IsProper) :
    symbolic.isZero (symbolic.normal (symbolic.number v)) = false ∧
      Coeff.IsPolynomial (symbolic.inverse (symbolic.normal (symbolic.number v))) := by
  obtain ⟨d, finite, inverse⟩ := inv_num proper
  have number : Coeff.expand (.num v) = .num v := (Expanded.num (M := Raised (0 < ·)) proper.1).expand
  constructor
  · show (Coeff.expand (.num v)).isZero = false
    rw [number]
    refine Bool.eq_false_iff.mpr fun zero => ?_
    obtain rfl : v = 0 := eq_of_beq zero
    cases proper.2
  · show Coeff.IsPolynomial (Coeff.inv (Coeff.expand (.num v)))
    rw [number, inverse]
    exact .num finite

theorem respects_isPolynomial : Respects fun (a _ : Coeff) => a.IsPolynomial where
  add left right := left.add right
  mul left right := left.mul right
  neg operand := operand.neg

theorem isPolynomial_input (source : String) : Coeff.IsPolynomial (symbolic.input source) :=
  isPolynomial_read (.scalar source)

theorem isPolynomial_component (source : String) (index : Option Nat) :
    Coeff.IsPolynomial (symbolic.component source index) := by
  have read := isPolynomial_read (.component source index)
  cases index with
  | none => exact read
  | some i => exact read

theorem corresponds_finite : Corresponds (fun (a _ : Coeff) => a.IsPolynomial) (fun v => v.isFinite = true) symbolic
    symbolic where
  laws := respects_isPolynomial
  one := isPolynomial_one
  integer _ := rfl
  number finite := .num finite
  input := isPolynomial_input
  component := isPolynomial_component
  divisor finite nonzero := isPolynomial_inverse ⟨finite, nonzero⟩

theorem isPolynomial_coeff {s : Signature} {t : Tree} (whole : t.IsPolynomial fun v => v.isFinite = true)
    {A : Terms Coeff} (evaluated : evaluate symbolic s t = .ok A) (blade : Nat) : (A.coeff blade).IsPolynomial := by
  obtain ⟨B, -, related⟩ := corresponds_finite.evaluated whole evaluated
  exact related.coeff (.num rfl) blade

/-! ### Polynomial identities -/

theorem corresponds_functions : Corresponds (fun c f => c.IsPolynomial ∧ Represents c f) (fun v => ∃ n : ℤ, v = .ofInt n)
    symbolic functionEngine where
  laws := {
    add := fun left right => ⟨left.1.add right.1, respects_represents.add left.2 right.2⟩
    mul := fun left right => ⟨left.1.mul right.1, respects_represents.mul left.2 right.2⟩
    neg := fun operand => ⟨operand.1.neg, respects_represents.neg operand.2⟩ }
  one := ⟨isPolynomial_one, represents_one⟩
  integer n := ⟨n, rfl⟩
  number := by
    rintro v ⟨n, rfl⟩
    exact ⟨.num rfl, simulates_functions.number n⟩
  input source := ⟨isPolynomial_input source, simulates_functions.input trivial⟩
  component source index := ⟨isPolynomial_component source index, simulates_functions.component source index⟩
  divisor := by
    rintro v ⟨n, rfl⟩ nonzero
    have proper : (n : ℚ) ≠ 0 := by simpa [Scalar.ofInt] using nonzero
    have unit : functionEngine.isZero (functionEngine.normal (functionEngine.number (.ofInt n))) = false :=
      decide_eq_false fun zero => proper (MvPolynomial.C_eq_zero.mp (eq_zero_of_algebraMap zero))
    exact ⟨unit, (isPolynomial_inverse ⟨rfl, nonzero⟩).2,
      simulates_functions.inverse (simulates_functions.normal (simulates_functions.number n)) unit⟩

/-- Polynomials of a tree by blade: those that evaluation with rational functions gives, whose values are those of the
coefficients of a multivector. -/
structure Computes (s : Signature) (t : Tree) (A : Multivector) (p : Nat → Polynomials) : Prop where
  functions : ∃ f, evaluate functionEngine s t = .ok f ∧ ∀ blade, f.coeff blade = algebraMap Polynomials Functions (p blade)
  values (blade : Nat) (point : Variable → ℚ) :
    Means (.ofPoint point) (A.terms.coeff blade) (MvPolynomial.eval point (p blade))

variable {s : Signature} {t u : Tree} {A B : Multivector} {p q : Nat → Polynomials}

theorem exists_computes (whole : t.IsPolynomial fun v => ∃ n : ℤ, v = .ofInt n)
    (evaluated : evaluateMultivector s t = .ok A) : A.signature = s ∧ ∃ p, Computes s t A p ∧
      ∀ blade, (A.terms.coeff blade).IsPolynomial ∧
        Represents (A.terms.coeff blade) (algebraMap Polynomials Functions (p blade)) ∧
        (A.terms.coeff blade = 0 ↔ p blade = 0) := by
  obtain ⟨terms, found, ⟨⟩⟩ := Outcome.of_bind evaluated
  obtain ⟨f, functions, related⟩ := corresponds_functions.evaluated whole found
  have each := related.coeff (⟨.num rfl, represents_zero⟩ : Coeff.IsPolynomial 0 ∧ Represents 0 0)
  choose p same values zero using fun blade => (each blade).1.represented (each blade).2
  exact ⟨rfl, p, ⟨⟨f, functions, same⟩, values⟩,
    fun blade => ⟨(each blade).1, same blade ▸ (each blade).2, zero blade⟩⟩

theorem all_isZero_iff (A : Terms Coeff) (skip : Nat → Bool) :
    (A.entries.all fun e => skip e.1 || e.2.isZero) = true ↔ ∀ blade, skip blade = false → A.coeff blade = 0 := by
  rw [all_eq_true]
  constructor
  · intro zero blade kept
    cases found : A.get? blade with
    | none => rw [Terms.coeff, found, Option.getD_none]
    | some c =>
      have entry := zero (blade, c) (mem_of_lookup found)
      rw [Terms.coeff, found, Option.getD_some]
      exact isZero_iff.mp (by simpa [kept] using entry)
  · intro zero e mem
    have found : A.get? e.1 = some e.2 := lookup_of_mem A.distinct mem
    cases kept : skip e.1 with
    | true => rfl
    | false =>
      have coefficient := zero e.1 kept
      rw [Terms.coeff, found, Option.getD_some] at coefficient
      exact isZero_iff.mpr coefficient

theorem isZero_iff_coeff : A.isZero = true ↔ ∀ blade, A.terms.coeff blade = 0 := by
  have all := all_isZero_iff A.terms fun _ => false
  simpa [Multivector.isZero, Terms.coefficients, all_map, Function.comp_def] using all

theorem isScalar_iff_coeff : A.isScalar = true ↔ ∀ blade, blade ≠ 0 → A.terms.coeff blade = 0 := by
  have all := all_isZero_iff A.terms (· == 0)
  simpa [isScalar] using all

theorem equal_iff_agrees (same : A.signature = B.signature) :
    Multivector.equal (.multivector A) (.multivector B) = .ok true ↔
      ∀ blade, Coeff.agrees (A.terms.coeff blade) (B.terms.coeff blade) = true := by
  have compared : Multivector.equal (.multivector A) (.multivector B) = .ok (A.agrees B) := by
    show (Multivector.lift A.signature (.multivector B) >>= fun B => pure (A.agrees B)) = .ok (A.agrees B)
    rw [Multivector.lift, if_pos same]
    rfl
  rw [compared, Except.ok.injEq, Multivector.agrees, all_eq_true]
  refine ⟨fun each blade => ?_, fun each blade _ => each blade⟩
  by_cases present : blade ∈ A.terms.blades ++ B.terms.blades
  · exact each blade present
  · rw [mem_append, not_or] at present
    rw [Terms.coeff_eq_zero present.1, Terms.coeff_eq_zero present.2]
    have zero : Represents 0 (algebraMap Polynomials Functions 0) := by rw [map_zero]; exact represents_zero
    exact (IsPolynomial.agrees_iff (.num rfl) (.num rfl) zero zero).mpr rfl

/-- The form of the coefficients decides polynomial identities: let two trees over integer literals, blades and host
inputs divide by integers other than zero only, and let no exponent be negative. Then each coefficient that the first
evaluates to is the number zero if and only if it is the zero polynomial in the host inputs, the result is seen to be
zero or a scalar if and only if it is, and the two results are equal if and only if all their polynomials are. -/
theorem form_decides_identity (first : t.IsPolynomial fun v => ∃ n : ℤ, v = .ofInt n)
    (second : u.IsPolynomial fun v => ∃ n : ℤ, v = .ofInt n) (left : evaluateMultivector s t = .ok A)
    (right : evaluateMultivector s u = .ok B) :
    ∃ p q, Computes s t A p ∧ Computes s u B q ∧ (∀ blade, A.terms.coeff blade = 0 ↔ p blade = 0) ∧
      (A.isZero = true ↔ ∀ blade, p blade = 0) ∧ (A.isScalar = true ↔ ∀ blade, blade ≠ 0 → p blade = 0) ∧
      (equal (.multivector A) (.multivector B) = .ok true ↔ ∀ blade, p blade = q blade) := by
  obtain ⟨rfl, p, computes, each⟩ := exists_computes first left
  obtain ⟨same, q, computes', each'⟩ := exists_computes second right
  have zero (blade : Nat) : A.terms.coeff blade = 0 ↔ p blade = 0 := (each blade).2.2
  refine ⟨p, q, computes, computes', zero, ?_, ?_, ?_⟩
  · rw [isZero_iff_coeff]
    exact forall_congr' zero
  · rw [isScalar_iff_coeff]
    exact forall_congr' fun blade => imp_congr_right fun _ => zero blade
  · rw [equal_iff_agrees same.symm]
    exact forall_congr' fun blade =>
      (each blade).1.agrees_iff (each' blade).1 (each blade).2.1 (each' blade).2.1

def halfSquare : Tree :=
  .operation .scalarDivision [.operation .power [.operation .add [.host "x", .host "y"], .literal (.ofInt 2)],
    .literal (.ofInt 2)]

def halfSquareTerms : Tree :=
  .operation .add [.operation .geometricProduct [.host "x", .host "y"],
    .operation .scalarDivision [.operation .add [.operation .geometricProduct [.host "x", .host "x"],
      .operation .geometricProduct [.host "y", .host "y"]], .literal (.ofInt 2)]]

theorem form_decides_identity_halfSquare : ∃ A B p q, evaluateMultivector ⟨0, 0, 0⟩ halfSquare = .ok A ∧
    evaluateMultivector ⟨0, 0, 0⟩ halfSquareTerms = .ok B ∧ Computes ⟨0, 0, 0⟩ halfSquare A p ∧
    Computes ⟨0, 0, 0⟩ halfSquareTerms B q ∧ ∀ blade, p blade = q blade := by
  have computed : (evaluateMultivector ⟨0, 0, 0⟩ halfSquare >>= fun A =>
      (evaluateMultivector ⟨0, 0, 0⟩ halfSquareTerms).map fun B =>
        (equal (.multivector A) (.multivector B)).toOption).toOption = some (some true) := by
    decide +kernel
  obtain ⟨A, left, rest⟩ := Outcome.of_bind (Outcome.of_toOption computed)
  obtain ⟨B, right, same⟩ := Outcome.of_map rest
  have first : halfSquare.IsPolynomial fun v => ∃ n : ℤ, v = .ofInt n := by
    have literals : (Scalar.ofInt 2).isZero = false ∧ ∃ k : Nat, Scalar.ofInt 2 = .ofInt k := ⟨rfl, 2, rfl⟩
    simpa [Tree.IsPolynomial, Tree.Every, halfSquare, Tree.walk, Tree.walkAll, Tree.IsWhole] using literals
  have second : halfSquareTerms.IsPolynomial fun v => ∃ n : ℤ, v = .ofInt n := by
    have literal : (Scalar.ofInt 2).isZero = false := rfl
    simpa [Tree.IsPolynomial, Tree.Every, halfSquareTerms, Tree.walk, Tree.walkAll, Tree.IsWhole] using literal
  obtain ⟨p, q, computes, computes', -, -, -, equal⟩ := form_decides_identity first second left right
  exact ⟨A, B, p, q, left, right, computes, computes', equal.mp (Outcome.of_toOption same)⟩

end Evaluation

end Bladewright
