import Bladewright.Proofs.Dense.Rows
import Bladewright.Proofs.Evaluation.PolynomialTrees

/-!
Division by a scalar.
-/
namespace Bladewright

namespace Coeff

/-- No number in an expression is infinite or undefined. -/
inductive IsFinite : Coeff → Prop
  | num {c : Scalar} (finite : c.isFinite) : IsFinite (num c)
  | sym (s : String) : IsFinite (sym s)
  | app (f : String) {args : List Coeff} (each : ∀ a ∈ args, IsFinite a) : IsFinite (app f args)
  | pow {b e : Coeff} (base : IsFinite b) (exponent : IsFinite e) : IsFinite (pow b e)
  | prod {c : Scalar} {fs : List Coeff} (finite : c.isFinite) (factors : ∀ f ∈ fs, IsFinite f) : IsFinite (prod c fs)
  | sum {c : Scalar} {ts : List Coeff} (finite : c.isFinite) (terms : ∀ t ∈ ts, IsFinite t) : IsFinite (sum c ts)

theorem Defined.isFinite {r : Reading} {e : Coeff} (defined : Defined r e) : IsFinite e := by
  induction defined with
  | num q => exact .num rfl
  | sym => exact .sym _
  | only s => exact .app _ (by simpa using .sym s)
  | component s i => exact .app _ (by simpa using ⟨.sym s, .num rfl⟩)
  | pow _ _ base => exact .pow base (.num rfl)
  | prod c _ factors => exact .prod rfl factors
  | sum c _ terms => exact .sum rfl terms

theorem Represents.isFinite {e : Coeff} {f : Functions} (represents : Represents e f) : IsFinite e := by
  obtain ⟨point, -, defined⟩ := represents_zero.exists_point represents
  exact defined.isFinite

theorem isFinite_ofFactors {c : Scalar} (finite : c.isFinite) (l : List (Variable × ℤ)) :
    IsFinite (ofFactors c (l.map factor)) := by
  have factors : ∀ f ∈ l.map factor, IsFinite f := by
    intro f mem
    obtain ⟨p, -, rfl⟩ := List.mem_map.mp mem
    have means : Means (.ofPoint fun _ => 0) p.1.read 0 := means_read p.1
    have read : IsFinite p.1.read := means.defined.isFinite
    unfold factor wholePower
    split
    · exact read
    · exact .pow read (.num rfl)
  obtain _ | ⟨p, _ | ⟨q, l⟩⟩ := l
  · exact .num finite
  · rw [List.map_singleton, ofFactors_single (factor_isTerm p).1]
    split
    · exact factors _ (by simp)
    · exact .prod finite factors
  · rw [ofFactors_several c (by simp)]
    exact .prod finite factors

theorem Expanded.isFinite {M : Monomial → Prop} {e : Coeff} (expanded : Expanded M e) : IsFinite e := by
  rcases expanded.cases with summand | ⟨c, ts, rfl, -, finite, terms⟩
  · cases summand with
    | num finite => exact .num finite
    | term weighted => exact isFinite_ofFactors weighted.finite _
  · refine .sum finite fun t mem => ?_
    obtain ⟨w, weighted, -, rfl⟩ := terms t mem
    exact isFinite_ofFactors weighted.finite _

end Coeff

namespace Evaluation

open Terms Coeff

variable {s : Signature} {t u : Tree} {A S : Terms Coeff}

/-- What a division comes to, by the form of the divisor. -/
theorem divide_cases (s : Signature) (A S : Terms Coeff) : divide symbolic s A S =
    if (S.entries.all fun e => e.1 == 0 || e.2.isZero) = true then
      if (expand (S.coeff 0)).isZero then .error .zeroDivisor else .ok (A.scale (expand (S.coeff 0)).inv)
    else .error (.notScalar S s) := by
  have seen : (S.entries.any fun e => e.1 != 0 && !symbolic.isZero e.2) =
      !(S.entries.all fun e => e.1 == 0 || e.2.isZero) := by
    rw [List.not_all_eq_any_not]
    exact congrArg S.entries.any (funext fun e => by simp [symbolic, bne])
  unfold divide
  rw [seen]
  cases S.entries.all fun e => e.1 == 0 || e.2.isZero <;> rfl

theorem evaluate_division (left : evaluate symbolic s t = .ok A) (right : evaluate symbolic s u = .ok S) :
    evaluate symbolic s (.operation .scalarDivision [t, u]) = divide symbolic s A S := by
  rw [evaluate, evaluateEach, evaluateEach, evaluateEach, left, right]
  rfl

theorem coeff_scale {blade : Nat} (present : blade ∈ A.blades) (c : Coeff) :
    (A.scale c).coeff blade = A.coeff blade * c := by
  obtain ⟨d, found⟩ := Option.isSome_iff_exists.mp (isSome_get?.mpr present)
  rw [coeff, coeff, scale, get?_map, found]
  rfl

theorem scale_coeff_cases {P : Coeff → Prop} {c : Coeff} (present : ∀ blade ∈ A.blades, P (A.coeff blade * c))
    (zero : P 0) (blade : Nat) : P ((A.scale c).coeff blade) := by
  by_cases inside : blade ∈ A.blades
  · rw [coeff_scale inside]
    exact present blade inside
  · rwa [coeff_eq_zero (by rwa [scale, blades_map])]

theorem isPolynomial_scale (each : ∀ blade, (A.coeff blade).IsPolynomial) {v : Scalar} (proper : v.IsProper)
    (blade : Nat) : ((A.scale (expand (.num v)).inv).coeff blade).IsPolynomial :=
  scale_coeff_cases (fun blade _ => (each blade).mul (isPolynomial_inverse proper).2) (.num rfl) blade

/-- A quotient represents the quotient of what its operands represent. -/
theorem represents_scale {f : Nat → Functions} {g : Functions} (each : ∀ blade, Represents (A.coeff blade) (f blade))
    (divisor : Represents (S.coeff 0) g) (nonzero : g ≠ 0) (blade : Nat) :
    Represents ((A.scale (expand (S.coeff 0)).inv).coeff blade) (f blade / g) := by
  by_cases present : blade ∈ A.blades
  · rw [coeff_scale present, div_eq_mul_inv]
    exact respects_represents.mul (each blade) (divisor.expand.inv nonzero)
  · have absent := each blade
    rw [coeff_eq_zero present] at absent
    rw [coeff_eq_zero (by rwa [scale, blades_map]), absent.unique represents_zero, zero_div]
    exact represents_zero

theorem exists_functions (own : t.IsPolynomial fun v => ∃ n : ℤ, v = .ofInt n) (evaluated : evaluate symbolic s t = .ok A) :
    ∃ f : Nat → Functions, ∀ blade, (A.coeff blade).IsPolynomial ∧ Represents (A.coeff blade) (f blade) := by
  obtain ⟨f, -, corresponds⟩ := corresponds_functions.evaluated own evaluated
  exact ⟨f.coeff, corresponds.coeff ⟨.num rfl, represents_zero⟩⟩

/-- A single term: a finite number times powers of host inputs with any whole exponents. -/
def IsSingle (e : Coeff) : Prop := IsSummand (Raised fun _ => True) e

/-- A quotient by a single term has single terms if its dividend has. -/
theorem isSingle_scale (each : ∀ blade, IsSingle (A.coeff blade)) {e : Coeff} (single : IsSingle e)
    (proper : ∀ v, e = .num v → v.isZero = false) (blade : Nat) : IsSingle ((A.scale e.inv).coeff blade) := by
  have inverse : IsSingle e.inv := single.raise (fun _ _ => trivial) (by decide) fun v number _ => proper v number
  exact scale_coeff_cases (P := IsSingle)
    (fun blade _ => IsSummand.expand_mul (fun _ _ _ _ => trivial) (each blade) inverse) (.num rfl) blade

def quotientTree (t u : Tree) : Tree := .operation .scalarDivision [t, u]

/-- The guard of a division: let two trees be evaluated, and let the second be a divisor of the first. It is refused if
a coefficient beside the scalar one is other than zero by its form, and if the scalar one expands to the exact zero.
Otherwise every coefficient is multiplied by the inverse of the scalar one. With integer literals, every divisor that is
the zero polynomial is refused, a quotient represents the quotient of the rational functions, and no number in it is
infinite or undefined. With approximate literals, no number is if the scalar coefficient is a number other than zero.
The same holds where coefficients come from divisions: of rational functions, and of single terms with approximate
numbers, whose quotients are single terms again. -/
theorem division_guard (left : evaluate symbolic s t = .ok A) (right : evaluate symbolic s u = .ok S) :
    ((∃ blade, blade ≠ 0 ∧ S.coeff blade ≠ 0) → evaluate symbolic s (quotientTree t u) = .error (.notScalar S s)) ∧
    ((∀ blade, blade ≠ 0 → S.coeff blade = 0) →
      (expand (S.coeff 0) = 0 → evaluate symbolic s (quotientTree t u) = .error .zeroDivisor) ∧
      (expand (S.coeff 0) ≠ 0 → ∃ B, evaluate symbolic s (quotientTree t u) = .ok B ∧ B.blades = A.blades ∧
        ∀ blade ∈ A.blades, B.coeff blade = A.coeff blade * (expand (S.coeff 0)).inv) ∧
      (t.IsPolynomial (fun v => ∃ n : ℤ, v = .ofInt n) → u.IsPolynomial (fun v => ∃ n : ℤ, v = .ofInt n) →
        (Represents (S.coeff 0) 0 → evaluate symbolic s (quotientTree t u) = .error .zeroDivisor) ∧
        ∀ B, evaluate symbolic s (quotientTree t u) = .ok B → ∀ blade, IsFinite (B.coeff blade) ∧
          ∃ f g, g ≠ 0 ∧ Represents (A.coeff blade) f ∧ Represents (S.coeff 0) g ∧ Represents (B.coeff blade) (f / g)) ∧
      (t.IsPolynomial (fun v => v.isFinite = true) → ∀ v : Scalar, S.coeff 0 = .num v → v.IsProper →
        ∀ B, evaluate symbolic s (quotientTree t u) = .ok B → ∀ blade, IsFinite (B.coeff blade)) ∧
      (∀ (f : Nat → Functions) (g : Functions), (∀ blade, Represents (A.coeff blade) (f blade)) →
        Represents (S.coeff 0) g → g ≠ 0 → ∃ B, evaluate symbolic s (quotientTree t u) = .ok B ∧
          ∀ blade, IsFinite (B.coeff blade) ∧ Represents (B.coeff blade) (f blade / g)) ∧
      ((∀ blade, IsSingle (A.coeff blade)) → IsSingle (expand (S.coeff 0)) →
        (∀ v, expand (S.coeff 0) = .num v → v.isZero = false) → ∃ B, evaluate symbolic s (quotientTree t u) = .ok B ∧
          ∀ blade, IsFinite (B.coeff blade) ∧ IsSingle (B.coeff blade))) := by
  have outcome : evaluate symbolic s (quotientTree t u) = divide symbolic s A S := evaluate_division left right
  rw [outcome, divide_cases]
  constructor
  · rintro ⟨blade, beside, nonzero⟩
    refine if_neg fun seen => nonzero ?_
    exact (all_isZero_iff S (· == 0)).mp seen blade (by simpa using beside)
  · intro scalar
    have seen : (S.entries.all fun e => e.1 == 0 || e.2.isZero) = true :=
      (all_isZero_iff S (· == 0)).mpr fun blade beside => scalar blade (by simpa using beside)
    have zero : (expand (S.coeff 0)).isZero = true ↔ expand (S.coeff 0) = 0 := isZero_iff
    have vanishing {g : Functions} (divisor : Represents (S.coeff 0) g) (vanishes : expand (S.coeff 0) = 0) : g = 0 := by
      have represents := divisor.expand
      rw [vanishes] at represents
      exact represents.unique represents_zero
    rw [if_pos seen]
    refine ⟨fun vanishes => if_pos (zero.mpr vanishes), fun nonzero => ?_, fun first second => ?_,
      fun first v number proper B found blade => ?_, fun f g each divisor nonzero => ?_, fun each single proper => ?_⟩
    · refine ⟨_, if_neg fun vanishes => nonzero (zero.mp vanishes), ?_, fun blade present => coeff_scale present _⟩
      rw [scale, blades_map]
    · obtain ⟨f, each⟩ := exists_functions first left
      obtain ⟨g, divisors⟩ := exists_functions second right
      obtain ⟨polynomial, divisor⟩ := divisors 0
      obtain ⟨p, same, -, vanishes⟩ := polynomial.represented divisor
      have exactly : g 0 = 0 → expand (S.coeff 0) = 0 := fun absent => by
        rw [polynomial.expand, vanishes]
        exact eq_zero_of_algebraMap (same ▸ absent)
      refine ⟨fun absent => if_pos (zero.mpr (exactly (divisor.unique absent))), fun B found blade => ?_⟩
      split at found
      · cases found
      · rename_i accepted
        cases found
        have nonzero : g 0 ≠ 0 := fun absent => accepted (zero.mpr (exactly absent))
        have quotient := represents_scale (fun blade => (each blade).2) divisor nonzero blade
        exact ⟨quotient.isFinite, _, _, nonzero, (each blade).2, divisor, quotient⟩
    · split at found
      · cases found
      · cases found
        rw [number]
        exact Expanded.isFinite (isPolynomial_scale (isPolynomial_coeff first left) proper blade)
    · refine ⟨_, if_neg fun vanishes => nonzero (vanishing divisor (zero.mp vanishes)), fun blade => ?_⟩
      have quotient := represents_scale each divisor nonzero blade
      exact ⟨quotient.isFinite, quotient⟩
    · refine ⟨_, if_neg fun vanishes => Bool.false_ne_true (proper 0 (zero.mp vanishes)).symm, fun blade => ?_⟩
      have quotient := isSingle_scale each single proper blade
      exact ⟨quotient.expanded.isFinite, quotient⟩

theorem division_guard_inputs : ∃ B, evaluate symbolic ⟨1, 0, 0⟩ (quotientTree (.host "x") (.host "y")) = .ok B ∧
    ∀ blade, IsFinite (B.coeff blade) := by
  have scalar : ∀ blade, blade ≠ 0 → (single 0 (.sym "y") : Terms Coeff).coeff blade = 0 :=
    fun blade beside => coeff_eq_zero (by simpa [single, blades] using beside)
  have whole (source : String) : (Tree.host source).IsPolynomial fun v => ∃ n : ℤ, v = .ofInt n :=
    (Tree.every_of_leaf rfl).mpr trivial
  obtain ⟨-, guard⟩ := division_guard (s := ⟨1, 0, 0⟩) (t := .host "x") (u := .host "y") rfl rfl
  obtain ⟨-, accepted, integral, -⟩ := guard scalar
  obtain ⟨B, found, -⟩ := accepted fun equal => by cases equal
  exact ⟨B, found, fun blade => ((integral (whole "x") (whole "y")).2 B found blade).1⟩

/-- An approximate zero is not refused: a basis vector over it has an infinite coefficient. -/
theorem division_by_approximate_zero : (Scalar.approx 0).isZero = true ∧
    ∃ B, evaluate symbolic ⟨1, 0, 0⟩ (quotientTree (.blade [0]) (.literal (.approx 0))) = .ok B ∧
      B.coeff 1 = .num .unsigned ∧ ¬ IsFinite (B.coeff 1) := by
  refine ⟨rfl, _, rfl, rfl, fun finite => ?_⟩
  cases (show IsFinite (.num .unsigned) from finite) with
  | num finite => cases finite

end Evaluation

end Bladewright
