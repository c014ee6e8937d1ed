import Bladewright.Proofs.Evaluation.Versors

/-!
Powers with literal exponents. A power with a natural exponent is a product from the left, so that exponents add up in
every algebra over a commutative ring (`naturalPower_add`). A power with a negative exponent inverts its operand
first.
-/
namespace Bladewright.Evaluation

open List Terms Coeff
open Expansion (VisitsAll)

def powerCall (t : Tree) (exponent : Int) : Tree := .call "power" [t, .literal (.ofInt exponent)]

/-! ### Exponents -/

section

variable {α : Type} [CommRing α] (s : Signature)

theorem combination_naturalPower_zero (A : Terms α) : (naturalPower s A 0).combination = .single 0 1 :=
  combination_single 0 1

theorem combination_naturalPower_succ (A : Terms α) (k : Nat) : (naturalPower s A (k + 1)).combination =
    convolve (Blade.productSign s) (naturalPower s A k).combination A.combination :=
  combination_geometricProduct s _ _

theorem naturalPower_add (A : Terms α) (m k : Nat) :
    (naturalPower s A (m + k)).Agrees ((naturalPower s A m).geometricProduct s (naturalPower s A k)) := by
  rw [agrees_iff, combination_geometricProduct]
  induction k with
  | zero => rw [Nat.add_zero, combination_naturalPower_zero, convolve_one_right]
  | succ k ih =>
    rw [← Nat.add_assoc, combination_naturalPower_succ, combination_naturalPower_succ, ih,
      convolve_productSign_assoc]

/-- The powers of terms and of their inverse cancel: the inner two factors of the product do. -/
theorem naturalPower_cancel {A V : Terms α} (right : (A.geometricProduct s V).Agrees (single 0 1)) (k : Nat) :
    ((naturalPower s A k).geometricProduct s (naturalPower s V k)).Agrees (single 0 1) := by
  rw [agrees_iff, combination_geometricProduct, combination_single] at right ⊢
  induction k with
  | zero => rw [combination_naturalPower_zero, combination_naturalPower_zero, convolve_one_right]
  | succ k ih =>
    have turned := naturalPower_add s V 1 k
    rw [agrees_iff, combination_geometricProduct, combination_naturalPower_succ, combination_naturalPower_zero,
      convolve_one_left, Nat.add_comm] at turned
    rw [turned, combination_naturalPower_succ, convolve_productSign_assoc,
      ← convolve_productSign_assoc s A.combination, right, convolve_one_left, ih]

end

/-! ### Calls of powers -/

section

variable {α : Type} [Add α] [Mul α] [Neg α] [OfNat α 0] [OfNat α 1] {table : Table} {E : Engine α} {s : Signature}
  {x : Tree} {A V : Terms α} (kept : table.KeepsBuiltins)
include kept

theorem Ends.power (n : Int) {o : Except (Error α) (Terms α)} (operand : Ends table E s [] none x o) :
    Ends table E s [] none (powerCall x n) (o >>= fun A => integerPower E s A n) := by
  have bound := kept.function (Builtin.function?_primitive .power)
  obtain ⟨x', trail, visits, evaluated⟩ := operand
  have args : VisitsAll table [] none [x, .literal (.ofInt n)] _ (.ok [x', .literal (.ofInt n)]) :=
    .cons visits (.cons (.literal ..) (.nil ..))
  have inside : VisitsAll table [⟨.function, "power"⟩] (some [x', .literal (.ofInt n)])
      [Builtin.a, Builtin.b] _ (.ok [x', .literal (.ofInt n)]) := .cons (.argument ..) (.cons (.argument ..) (.nil ..))
  refine ⟨.operation .power [x', .literal (.ofInt n)], _,
    .function bound rfl not_mem_nil args (.operation inside), ?_⟩
  rw [evaluate, evaluateEach, evaluateEach, evaluateEach, evaluated, perform, integerOf_integer]
  rfl

theorem denotes_power_iff (n : Int) (operand : Denotes table E s x A) :
    Denotes table E s (powerCall x n) V ↔ integerPower E s A n = .ok V := by
  have ends := operand.ends.power kept n
  exact ⟨fun denotes => denotes.outcome ends, fun accepted => Ends.denotes (accepted ▸ ends)⟩

theorem denotes_inverse_iff (operand : Denotes table E s x A) :
    Denotes table E s (.call "inverse" [x]) V ↔ inverse E s A = .ok V := by
  have ends := operand.ends.inverse kept fun _ _ => not_mem_nil
  exact ⟨fun denotes => denotes.outcome ends, fun accepted => Ends.denotes (accepted ▸ ends)⟩

theorem denotes_power_neg (operand : Denotes table E s x A) {m : Nat} (positive : 1 ≤ m) :
    Denotes table E s (powerCall x (-m)) V ↔ Denotes table E s (powerCall (.call "inverse" [x]) m) V := by
  obtain ⟨k, rfl⟩ := Nat.exists_eq_add_of_le' positive
  have inverted := (operand.ends.inverse kept fun _ _ => not_mem_nil).power kept (k + 1 : Nat)
  have same : integerPower E s A (-(k + 1 : Nat)) =
      (inverse E s A >>= fun V => integerPower E s V (k + 1 : Nat)) := rfl
  rw [denotes_power_iff kept _ operand, same]
  exact ⟨fun accepted => Ends.denotes (accepted ▸ inverted), fun denotes => denotes.outcome inverted⟩

theorem exists_denotes_power_neg (operand : Denotes table E s x A) {m : Nat} (positive : 1 ≤ m) :
    (∃ V, Denotes table E s (powerCall x (-m)) V) ↔ ∃ V, Denotes table E s (.call "inverse" [x]) V := by
  simp only [denotes_power_neg kept operand positive]
  constructor
  · rintro ⟨V, denotes⟩
    have outcome := denotes.outcome ((operand.ends.inverse kept fun _ _ => not_mem_nil).power kept m)
    cases inverted : inverse E s A with
    | error e =>
      rw [inverted] at outcome
      cases outcome
    | ok W => exact ⟨W, (denotes_inverse_iff kept operand).mpr inverted⟩
  · rintro ⟨W, denotes⟩
    exact ⟨_, (denotes_power_iff kept m denotes).mpr rfl⟩

end

/-! ### The laws -/

section

variable {table : Table} {s : Signature} {A : Terms Coeff} {f : Terms Functions}

/-- Powers: let a tree evaluate to a multivector. Its powers with negative exponents are accepted if and only if its
inverse is, and denote what the powers of the inverse denote. If the coefficients represent rational functions of the
host inputs, the power with a sum as its exponent denotes the same functions as the product of the powers; and if the
inverse is accepted and the product of the multivector and its reverse has a scalar part other than the zero function,
the product of the powers with opposite exponents denotes the function one. -/
theorem power_laws (kept : table.KeepsBuiltins) {a : Tree} (denotes : Denotes table symbolic s a A) :
    (∀ m : Nat, 1 ≤ m →
      ((∃ V, Denotes table symbolic s (powerCall a (-m)) V) ↔ ∃ V, Denotes table symbolic s (.call "inverse" [a]) V) ∧
      ∀ V, Denotes table symbolic s (powerCall a (-m)) V ↔
        Denotes table symbolic s (powerCall (.call "inverse" [a]) m) V) ∧
    (∀ f, DenotesFunctions table s a f →
      (∀ m k : Nat, ∃ g, DenotesFunctions table s (powerCall a (m + k : Nat)) g ∧
        DenotesFunctions table s (.call "geometric_product" [powerCall a m, powerCall a k]) g) ∧
      ∀ m : Nat, 1 ≤ m → (∃ V, Denotes table symbolic s (.call "inverse" [a]) V) →
        (f.geometricProduct s f.reverse).coeff 0 ≠ 0 →
        DenotesFunctions table s (.call "geometric_product" [powerCall a m, powerCall a (-m)]) (single 0 1)) := by
  have follows {A : Terms Coeff} {f : Terms Functions} (related : Related Represents A f) (k : Nat) :
      Related Represents (naturalPower s A k) (naturalPower s f k) := simulates_functions.follows.naturalPower s related k
  have natural (m : Nat) : Denotes table symbolic s (powerCall a m) (naturalPower s A m) :=
    (denotes_power_iff kept m denotes).mpr rfl
  refine ⟨fun m positive => ⟨exists_denotes_power_neg kept denotes positive,
    fun V => denotes_power_neg kept denotes positive⟩, ?_⟩
  rintro f ⟨A', f', denotes', represents, same⟩
  obtain rfl : A = A' := Except.ok.inj (denotes'.outcome denotes.ends)
  constructor
  · intro m k
    refine ⟨(naturalPower s f' m).geometricProduct s (naturalPower s f' k),
      ⟨_, _, natural (m + k), follows represents (m + k), naturalPower_add s f' m k⟩,
      ⟨_, _, (natural m).geometricProduct kept (natural k), ?_, fun _ => rfl⟩⟩
    exact related_product s (follows represents m) (follows represents k)
  · rintro m positive ⟨V, inverted⟩ nonzero
    have equal := (denotes_inverse_iff kept denotes).mp inverted
    obtain ⟨v, representsV, right⟩ := exists_rightInverse represents equal ((norm_congr s same).trans_ne nonzero)
    have negative : Denotes table symbolic s (powerCall a (-m)) (naturalPower s V m) :=
      (denotes_power_neg kept denotes positive).mpr ((denotes_power_iff kept m inverted).mpr rfl)
    exact ⟨_, _, (natural m).geometricProduct kept negative,
      related_product s (follows represents m) (follows representsV m),
      naturalPower_cancel s right m⟩

end

/-- The square of a vector of which one component squares to zero is accepted with both exponents, and the product of
its powers is one. -/
theorem power_laws_vector :
    ((∃ V, Denotes .builtin symbolic ⟨0, 1, 1⟩ (powerCall vectorInput (-(2 : Nat))) V) ↔
      ∃ V, Denotes .builtin symbolic ⟨0, 1, 1⟩ (.call "inverse" [vectorInput]) V) ∧
    (∃ g, DenotesFunctions .builtin ⟨0, 1, 1⟩ (powerCall vectorInput (2 + 3 : Nat)) g ∧
      DenotesFunctions .builtin ⟨0, 1, 1⟩
        (.call "geometric_product" [powerCall vectorInput (2 : Nat), powerCall vectorInput (3 : Nat)]) g) ∧
    DenotesFunctions .builtin ⟨0, 1, 1⟩
      (.call "geometric_product" [powerCall vectorInput (2 : Nat), powerCall vectorInput (-(2 : Nat))]) (single 0 1) := by
  obtain ⟨A, -, denotes, -, -⟩ := denotesFunctions_vectorInput
  obtain ⟨negative, functions⟩ := power_laws Table.keepsBuiltins_builtin denotes
  obtain ⟨sums, cancel⟩ := functions _ denotesFunctions_vectorInput
  exact ⟨(negative 2 (by decide)).1, sums 2 3,
    cancel 2 (by decide) (exists_denotes rfl (by decide +kernel)) norm_vectorFunctions_ne_zero⟩

/-! ### A base that is not seen to be zero -/

/-- What the powers of the hidden zero with opposite exponents multiply to starts with one over a scalar that is not
seen to be zero. -/
theorem startsOver_hiddenZero {B V : Terms Coeff} (evaluated : evaluate symbolic ⟨0, 0, 0⟩ hiddenZero = .ok B)
    (inverted : inverse symbolic ⟨0, 0, 0⟩ B = .ok V) :
    startsOver ((B.geometricProduct ⟨0, 0, 0⟩ B.reverse).coeff 0)
      (((naturalPower ⟨0, 0, 0⟩ B 1).geometricProduct ⟨0, 0, 0⟩ (naturalPower ⟨0, 0, 0⟩ V 1)).coeff 0) = true := by
  have computed : ((evaluate symbolic ⟨0, 0, 0⟩ hiddenZero).toOption.bind fun B =>
      (inverse symbolic ⟨0, 0, 0⟩ B).toOption.map fun V =>
        startsOver ((B.geometricProduct ⟨0, 0, 0⟩ B.reverse).coeff 0)
          (((naturalPower ⟨0, 0, 0⟩ B 1).geometricProduct ⟨0, 0, 0⟩ (naturalPower ⟨0, 0, 0⟩ V 1)).coeff 0)) =
        some true := by
    decide +kernel
  rw [evaluated] at computed
  simp only [Except.toOption, Option.bind_some, inverted, Option.map_some, Option.some.injEq] at computed
  exact computed

/-- Powers with opposite exponents need not cancel: the hidden zero denotes the zero function, its inverse and its power
with the exponent minus one are evaluated without an error, and its powers multiply to something that denotes no
function. -/
theorem power_of_hidden_zero :
    DenotesFunctions .builtin ⟨0, 0, 0⟩ hiddenZero (single 0 0) ∧
    (∃ V, Denotes .builtin symbolic ⟨0, 0, 0⟩ (.call "inverse" [hiddenZero]) V) ∧
    (∃ V, Denotes .builtin symbolic ⟨0, 0, 0⟩ (powerCall hiddenZero (-1)) V) ∧
    ∀ f, ¬ DenotesFunctions .builtin ⟨0, 0, 0⟩
      (.call "geometric_product" [powerCall hiddenZero 1, powerCall hiddenZero (-1)]) f := by
  have kept := Table.keepsBuiltins_builtin
  have hidden : DenotesFunctions .builtin ⟨0, 0, 0⟩ hiddenZero (single 0 0) :=
    denotesFunctions_of_evaluate rfl (isExact_of_integers (by decide +kernel)) (by decide +kernel) evaluate_hiddenZero
  have accepted : ∃ V, Denotes .builtin symbolic ⟨0, 0, 0⟩ (.call "inverse" [hiddenZero]) V :=
    exists_denotes rfl (by decide +kernel)
  obtain ⟨B, g, denotes, represents, same⟩ := id hidden
  refine ⟨hidden, accepted, (exists_denotes_power_neg kept denotes (m := 1) le_rfl).mpr accepted, ?_⟩
  rintro f ⟨P, f', denotesP, representsP, -⟩
  obtain ⟨V, inverted⟩ := accepted
  have first : Denotes .builtin symbolic ⟨0, 0, 0⟩ (powerCall hiddenZero 1) (naturalPower ⟨0, 0, 0⟩ B 1) :=
    (denotes_power_iff kept 1 denotes).mpr rfl
  have second : Denotes .builtin symbolic ⟨0, 0, 0⟩ (powerCall hiddenZero (-1)) (naturalPower ⟨0, 0, 0⟩ V 1) :=
    (denotes_power_neg kept denotes (m := 1) le_rfl).mpr ((denotes_power_iff kept 1 inverted).mpr rfl)
  obtain rfl := Except.ok.inj (denotesP.outcome (first.geometricProduct kept second).ends)
  have evaluated : evaluate symbolic ⟨0, 0, 0⟩ hiddenZero = .ok B := by
    obtain ⟨expanded, done, evaluated⟩ := denotes
    obtain rfl : hiddenZero = expanded := Except.ok.inj done
    exact evaluated
  have starts := startsOver_hiddenZero evaluated ((denotes_inverse_iff kept denotes).mp inverted)
  exact not_represents_of_startsOver (represents_norm_zero ⟨0, 0, 0⟩ represents same) starts _
    (representsP.coeff represents_zero 0)

end Bladewright.Evaluation
