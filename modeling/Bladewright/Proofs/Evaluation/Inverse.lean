import Bladewright.Proofs.Algebra.Inverses
import Bladewright.Proofs.Algebra.Relabel
import Bladewright.Proofs.Coeff.RationalFunction
import Bladewright.Proofs.Compilation.Correctness
import Bladewright.Proofs.Evaluation.Builtins

/-!
The built-in inverse over the rational functions of the host inputs. A tree denotes functions if its coefficients
represent them (`DenotesFunctions`).
-/
namespace Bladewright.Evaluation

open List Terms Coeff

/-- A tree denotes terms whose coefficients represent rational functions, which agree with those of `f`. -/
def DenotesFunctions (table : Table) (s : Signature) (t : Tree) (f : Terms Functions) : Prop :=
  ∃ A g, Denotes table symbolic s t A ∧ Related Represents A g ∧ g.Agrees f

variable {table : Table} {s : Signature} {A V : Terms Coeff} {f : Terms Functions}

/-! ### Evaluation with rational functions -/

open Classical in
/-- Evaluation with rational functions: every host input is a variable, and zero is recognised. -/
noncomputable def functionEngine : Engine Functions where
  number v := algebraMap Polynomials Functions (.C v.rational)
  input source := algebraMap Polynomials Functions (.X (.scalar source))
  component source index := algebraMap Polynomials Functions (.X (.component source index))
  isZero g := decide (g = 0)
  normal g := g
  inverse g := g⁻¹

theorem simulates_functions : Simulates Represents (fun _ => True) symbolic functionEngine where
  laws := respects_represents
  zero := represents_zero
  one := represents_one
  number q := .number q
  input _ := .input fun _ => ⟨.sym rfl, rfl⟩
  component source index := by
    refine .input fun point => ?_
    cases index with
    | none => exact ⟨.only source, rfl⟩
    | some i => exact ⟨.component source i, rfl⟩
  isZero represents zero := by simpa [functionEngine] using represents.eq_zero_of_isZero zero
  normal represents := represents.expand
  inverse represents nonzero := represents.inv (by simpa [functionEngine] using nonzero)

variable {expanded t : Tree} {α : Type} {g : Terms Functions}

theorem denotesFunctions_of_evaluate (done : Expansion.expand table t = .ok expanded)
    (literals : ∀ v ∈ expanded.literals, v.IsExact) (accepted : (evaluate symbolic s expanded).isOk = true)
    (evaluated : evaluate functionEngine s expanded = .ok f) : DenotesFunctions table s t f := by
  cases found : evaluate symbolic s expanded with
  | error e =>
    rw [found] at accepted
    cases accepted
  | ok A =>
    have simulated := simulates_functions.evaluated s expanded literals (fun _ _ => trivial) A found
    rcases simulated with stopped | ⟨g, same, related⟩
    · rw [evaluated] at stopped
      cases stopped
    · rw [evaluated] at same
      cases same
      exact ⟨A, f, ⟨expanded, done, found⟩, related, fun _ => rfl⟩

theorem exists_denotes [Add α] [Mul α] [Neg α] [OfNat α 0] [OfNat α 1] {E : Engine α}
    (done : Expansion.expand table t = .ok expanded) (accepted : (evaluate E s expanded).isOk = true) :
    ∃ A, Denotes table E s t A := by
  cases evaluated : evaluate E s expanded with
  | error e =>
    rw [evaluated] at accepted
    cases accepted
  | ok A => exact ⟨A, expanded, done, evaluated⟩

theorem isExact_of_integers (integers : ∀ v ∈ t.literals, v.toInt?.isSome = true) : ∀ v ∈ t.literals, v.IsExact := by
  intro v mem
  obtain ⟨n, found⟩ := Option.isSome_iff_exists.mp (integers v mem)
  exact ⟨n, Scalar.exact_of_toInt? found⟩

theorem integerOf_integer (slot : Slot) (n : ℤ) :
    (integerOf slot (.literal (.ofInt n)) : Except (Error α) ℤ) = .ok n := by
  have found : (Scalar.ofInt n).toInt? = some n := Scalar.toInt?_exact_intCast n
  rw [integerOf, found]
  rfl

/-! ### The inverse -/

theorem related_product (s : Signature) {B : Terms Coeff} (left : Related Represents A f)
    (right : Related Represents B g) : Related Represents (A.geometricProduct s B) (f.geometricProduct s g) :=
  left.multiply respects_represents s .all right

theorem norm_congr (s : Signature) (same : f.Agrees g) :
    (f.geometricProduct s f.reverse).coeff 0 = (g.geometricProduct s g.reverse).coeff 0 := by
  rw [agrees_iff] at same
  rw [← combination_apply, ← combination_apply, combination_geometricProduct, combination_geometricProduct,
    combination_reverse, combination_reverse, same]

theorem agrees_scalar {D : Terms Coeff} (related : Related Represents D g)
    (seen : (D.entries.any fun e => e.1 != 0 && !e.2.isZero) = false) : g.Agrees (single 0 (g.coeff 0)) := by
  intro blade
  by_cases scalar : blade = 0
  · subst scalar
    rfl
  · have represents := related.coeff represents_zero blade
    have zero : (D.coeff blade).isZero = true := by
      rw [Terms.coeff]
      cases found : D.get? blade with
      | none => rfl
      | some c =>
        have entry := any_eq_false.mp seen (blade, c) (mem_of_lookup found)
        simpa [scalar] using entry
    rw [represents.eq_zero_of_isZero zero, coeff_eq_zero]
    simpa [blades, single] using scalar

theorem exists_rightInverse (related : Related Represents A f) (inverted : inverse symbolic s A = .ok V)
    (nonzero : (f.geometricProduct s f.reverse).coeff 0 ≠ 0) :
    ∃ v, Related Represents V v ∧ (f.geometricProduct s v).Agrees (single 0 1) := by
  have reversed := related.reverse respects_represents
  have product : Related Represents (A.geometricProduct s A.reverse) (f.geometricProduct s f.reverse) :=
    related_product s related reversed
  unfold inverse divide at inverted
  split at inverted
  · cases inverted
  · rename_i seen
    simp only at inverted
    split at inverted
    · cases inverted
    · cases inverted
      have denominator := (product.coeff represents_zero 0).expand.inv nonzero
      refine ⟨_, reversed.scale respects_represents denominator, ?_⟩
      exact geometricProduct_scale_reverse s (agrees_scalar product (Bool.eq_false_of_not_eq_true seen)) nonzero

/-- The inverse is sound: let the coefficients of three trees represent rational functions of the host inputs. If the
inverse of the first is accepted, and its product with its reverse has a scalar part other than the zero function, then
its products with the inverse in both orders denote the function one, a quotient by it cancels a factor on the right,
and the versor product of a product denotes the same functions as the product of the versor products. -/
theorem inverse_sound (kept : table.KeepsBuiltins) {a x y : Tree} {f g h : Terms Functions}
    (first : DenotesFunctions table s a f) (second : DenotesFunctions table s x g)
    (third : DenotesFunctions table s y h)
    (accepted : ∃ V, Denotes table symbolic s (.call "inverse" [a]) V)
    (nonzero : (f.geometricProduct s f.reverse).coeff 0 ≠ 0) :
    DenotesFunctions table s (.call "geometric_product" [a, .call "inverse" [a]]) (single 0 1) ∧
    DenotesFunctions table s (.call "geometric_product" [.call "inverse" [a], a]) (single 0 1) ∧
    DenotesFunctions table s (.call "division" [.call "geometric_product" [x, a], a]) g ∧
    ∃ k, DenotesFunctions table s (.call "versor_product" [a, .call "geometric_product" [x, y]]) k ∧
      DenotesFunctions table s
        (.call "geometric_product" [.call "versor_product" [a, x], .call "versor_product" [a, y]]) k := by
  obtain ⟨A, f', denotes, represents, same⟩ := first
  obtain ⟨X, g', denotesX, representsX, sameX⟩ := second
  obtain ⟨Y, h', denotesY, representsY, -⟩ := third
  obtain ⟨V, inverted⟩ := accepted
  have equal := denotes.inverse_eq kept inverted
  have norm := (norm_congr s same).trans_ne nonzero
  obtain ⟨v, representsV, right⟩ := exists_rightInverse represents equal norm
  have within : v.Within s.dimension := by
    intro blade mem
    exact inverted.within blade (representsV.blades_eq ▸ mem)
  have left := leftInverse_of_rightInverse s within right
  have quotient : ((g'.geometricProduct s f').geometricProduct s v).Agrees g :=
    fun blade => (geometricProduct_cancel s right g' blade).trans (sameX blade)
  have versorX := related_product s (related_product s represents representsX) representsV
  have versorY := related_product s (related_product s represents representsY) representsV
  have versorXY := related_product s
    (related_product s represents (related_product s representsX representsY)) representsV
  refine ⟨⟨_, _, denotes.geometricProduct kept inverted, related_product s represents representsV, right⟩,
    ⟨_, _, inverted.geometricProduct kept denotes, related_product s representsV represents, left⟩,
    ⟨_, _, (denotesX.geometricProduct kept denotes).division kept denotes equal,
      related_product s (related_product s representsX represents) representsV, quotient⟩, _,
    ⟨_, _, denotes.versorProduct kept (denotesX.geometricProduct kept denotesY) equal, versorXY,
      conjugation_multiplicative s left g' h'⟩, ?_⟩
  exact ⟨_, _, (denotes.versorProduct kept denotesX equal).geometricProduct kept
    (denotes.versorProduct kept denotesY equal), related_product s versorX versorY, fun _ => rfl⟩

/-! ### A zero that is not seen -/

def scalarInput : Tree := .typed (.host "x") (.named 0 "Scalar")

def successor : Tree := .operation .add [scalarInput, .literal (.ofInt 1)]

def hiddenZero : Tree :=
  .operation .add [.operation .add [.operation .scalarDivision [scalarInput, successor],
    .operation .scalarDivision [.literal (.ofInt 1), successor]], .literal (.ofInt (-1))]

theorem evaluate_scalarInput :
    evaluate functionEngine s scalarInput = .ok (single 0 (functionEngine.component "x" none)) := by
  have resolved : (GradeSpec.named 0 "Scalar").resolve s.dimension = [0] := mergeSort_singleton 0
  have checked : (checkedGrades s (.named 0 "Scalar") : Except (Error Functions) _) = .ok [0] := by
    rw [checkedGrades, resolved]
    rfl
  have blades : bladesOf s.dimension [0] = [0] := by
    rw [bladesOf, flatMap_singleton]
    cases s.dimension <;> rfl
  rw [scalarInput, evaluate, checked]
  show Except.ok (inputTerms functionEngine s.dimension "x" [0]) = _
  rw [inputTerms, blades]
  rfl

theorem divide_scalars (s : Signature) (g : Functions) {h : Functions} (nonzero : h ≠ 0) :
    divide functionEngine s (single 0 g) (single 0 h) = .ok (single 0 (g * h⁻¹)) := by
  have coefficient : (single 0 h : Terms Functions).coeff 0 = h := rfl
  have defined : functionEngine.isZero h = false := by simpa [functionEngine] using nonzero
  unfold divide
  rw [coefficient]
  show (if functionEngine.isZero h then _ else _) = _
  rw [defined]
  rfl

theorem number_ofInt (n : Int) : functionEngine.number (.ofInt n) = n := by
  show algebraMap Polynomials Functions (.C (n : ℚ)) = n
  rw [map_intCast, map_intCast]

theorem successor_ne_zero : functionEngine.component "x" none + 1 ≠ 0 := by
  have polynomial : (.X (.component "x" none) + 1 : Polynomials) ≠ 0 := by
    intro zero
    have value := congrArg (MvPolynomial.eval fun _ => 0) zero
    simp at value
  have function := algebraMap_ne_zero polynomial
  rwa [map_add, map_one] at function

theorem evaluate_hiddenZero : evaluate functionEngine s hiddenZero = .ok (single 0 0) := by
  have nonzero := successor_ne_zero
  have input := evaluate_scalarInput (s := s)
  generalize functionEngine.component "x" none = x at nonzero input
  have literal (n : Int) :
      evaluate functionEngine s (.literal (.ofInt n)) = .ok (single 0 (n : Functions)) := by
    rw [evaluate, number_ofInt]
    rfl
  have next : evaluate functionEngine s successor = .ok (single 0 (x + 1)) := by
    rw [successor, evaluate, evaluateEach, evaluateEach, evaluateEach, input, literal, Int.cast_one]
    rfl
  have first : evaluate functionEngine s (.operation .scalarDivision [scalarInput, successor]) =
      .ok (single 0 (x * (x + 1)⁻¹)) := by
    rw [evaluate, evaluateEach, evaluateEach, evaluateEach, input, next]
    exact divide_scalars s x nonzero
  have second : evaluate functionEngine s (.operation .scalarDivision [.literal (.ofInt 1), successor]) =
      .ok (single 0 (1 * (x + 1)⁻¹)) := by
    rw [evaluate, evaluateEach, evaluateEach, evaluateEach, literal, next, Int.cast_one]
    exact divide_scalars s 1 nonzero
  have sum : evaluate functionEngine s (.operation .add [.operation .scalarDivision [scalarInput, successor],
      .operation .scalarDivision [.literal (.ofInt 1), successor]]) =
      .ok (single 0 (x * (x + 1)⁻¹ + 1 * (x + 1)⁻¹)) := by
    rw [evaluate, evaluateEach, evaluateEach, evaluateEach, first, second]
    rfl
  have one : x * (x + 1)⁻¹ + 1 * (x + 1)⁻¹ = 1 := by rw [← add_mul, mul_inv_cancel₀ nonzero]
  rw [one] at sum
  rw [hiddenZero, evaluate, evaluateEach, evaluateEach, evaluateEach, sum, literal]
  show Except.ok (single 0 (1 + ((-1 : Int) : Functions))) = _
  rw [Int.cast_neg, Int.cast_one, add_neg_cancel]

/-- A zero can be accepted by the inverse: the tree denotes the zero function, its inverse is evaluated without an
error, and no terms have the product one with zero. -/
theorem inverse_of_hidden_zero : DenotesFunctions .builtin ⟨0, 0, 0⟩ hiddenZero (single 0 0) ∧
    (∃ V, Denotes .builtin symbolic ⟨0, 0, 0⟩ (.call "inverse" [hiddenZero]) V) ∧
    ∀ v : Terms Functions, ¬ ((single 0 0).geometricProduct ⟨0, 0, 0⟩ v).Agrees (single 0 1) := by
  refine ⟨?_, ?_, fun v agrees => ?_⟩
  · exact denotesFunctions_of_evaluate rfl (isExact_of_integers (by decide +kernel)) (by decide +kernel)
      evaluate_hiddenZero
  · exact exists_denotes rfl (by decide +kernel)
  · rw [agrees_iff, combination_geometricProduct, combination_single, combination_single, Finsupp.single_zero,
      convolve_zero_left] at agrees
    exact one_ne_zero (Finsupp.single_eq_zero.mp agrees.symm)

/-! ### An inverse in a degenerate plane -/

def vectorInput : Tree := .typed (.host "a") (.named 1 "Vector")

noncomputable def vectorFunctions : Terms Functions :=
  ⟨[(1, functionEngine.component "a" (some 0)), (2, functionEngine.component "a" (some 1))], by decide⟩

theorem evaluate_vectorInput : evaluate functionEngine ⟨0, 1, 1⟩ vectorInput = .ok vectorFunctions := by
  have resolved : (GradeSpec.named 1 "Vector").resolve (Signature.dimension ⟨0, 1, 1⟩) = [1] :=
    mergeSort_singleton 1
  have checked : (checkedGrades ⟨0, 1, 1⟩ (.named 1 "Vector") : Except (Error Functions) _) = .ok [1] := by
    rw [checkedGrades, resolved]
    rfl
  rw [vectorInput, evaluate, checked]
  rfl

theorem denotesFunctions_vectorInput : DenotesFunctions .builtin ⟨0, 1, 1⟩ vectorInput vectorFunctions :=
  denotesFunctions_of_evaluate rfl (isExact_of_integers (by decide +kernel)) (by decide +kernel) evaluate_vectorInput

theorem norm_vectorFunctions : (vectorFunctions.geometricProduct ⟨0, 1, 1⟩ vectorFunctions.reverse).coeff 0 =
    -functionEngine.component "a" (some 0) * functionEngine.component "a" (some 0) := rfl

theorem norm_vectorFunctions_ne_zero :
    (vectorFunctions.geometricProduct ⟨0, 1, 1⟩ vectorFunctions.reverse).coeff 0 ≠ 0 := by
  have component : functionEngine.component "a" (some 0) ≠ 0 := algebraMap_ne_zero (MvPolynomial.X_ne_zero _)
  rw [norm_vectorFunctions]
  exact mul_ne_zero (neg_ne_zero.mpr component) component

theorem denotesFunctions_basis {i : Int} {blade : Nat} (accepted : (evaluate symbolic s (.blade [i])).isOk = true)
    (value : evaluate functionEngine s (.blade [i]) = .ok (single blade (functionEngine.number (.ofInt 1)))) :
    DenotesFunctions .builtin s (.blade [i]) (single blade 1) := by
  rw [number_ofInt, Int.cast_one] at value
  exact denotesFunctions_of_evaluate rfl (fun _ mem => by cases mem) accepted value

/-- A vector of which one component squares to zero has an inverse on both sides, and its versor product is
multiplicative on the two basis vectors. -/
theorem inverse_sound_vector :
    DenotesFunctions .builtin ⟨0, 1, 1⟩ (.call "geometric_product" [vectorInput, .call "inverse" [vectorInput]])
      (single 0 1) ∧
    DenotesFunctions .builtin ⟨0, 1, 1⟩ (.call "geometric_product" [.call "inverse" [vectorInput], vectorInput])
      (single 0 1) ∧
    DenotesFunctions .builtin ⟨0, 1, 1⟩
      (.call "division" [.call "geometric_product" [.blade [0], vectorInput], vectorInput]) (single 1 1) ∧
    ∃ k, DenotesFunctions .builtin ⟨0, 1, 1⟩
        (.call "versor_product" [vectorInput, .call "geometric_product" [.blade [0], .blade [1]]]) k ∧
      DenotesFunctions .builtin ⟨0, 1, 1⟩ (.call "geometric_product"
        [.call "versor_product" [vectorInput, .blade [0]], .call "versor_product" [vectorInput, .blade [1]]]) k := by
  exact inverse_sound Table.keepsBuiltins_builtin denotesFunctions_vectorInput
    (denotesFunctions_basis (by decide +kernel) rfl) (denotesFunctions_basis (by decide +kernel) rfl)
    (exists_denotes rfl (by decide +kernel)) norm_vectorFunctions_ne_zero

end Bladewright.Evaluation
