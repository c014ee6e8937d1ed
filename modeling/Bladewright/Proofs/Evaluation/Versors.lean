import Bladewright.Proofs.Algebra.Vectors
import Bladewright.Proofs.Evaluation.Inverse

/-!
Projections, rejections and sandwich products as calls of built-in functions, over the rational functions of the host
inputs.
-/
namespace Bladewright.Evaluation

open Terms Coeff Blade

variable {table : Table} {s : Signature}

/-! ### Projection and rejection -/

/-- Multiplication by a vector splits into a contraction and an outer product, on both sides and over every commutative
ring. So let the coefficients of two trees represent rational functions of the host inputs, those of the first tree a
vector and those of the second terms without a scalar part. If the inverse of the second is accepted, and its product
with its reverse has a scalar part other than the zero function, then the projection and the rejection of the first by
the second add up to the first. -/
theorem vector_splits (s : Signature) : (∀ (α : Type) [CommRing α] (v B : Terms α), v.Homogeneous 1 →
      (v.geometricProduct s B).Agrees ((v.leftContraction s B).add (v.outerProduct s B)) ∧
      (B.geometricProduct s v).Agrees ((B.rightContraction s v).add (B.outerProduct s v))) ∧
    ∀ (table : Table) (v b : Tree) (f g : Terms Functions), table.KeepsBuiltins →
      DenotesFunctions table s v f → DenotesFunctions table s b g → f.Homogeneous 1 → g.coeff 0 = 0 →
      (∃ V, Denotes table symbolic s (.call "inverse" [b]) V) → (g.geometricProduct s g.reverse).coeff 0 ≠ 0 →
      DenotesFunctions table s (.call "add" [.call "project" [v, b], .call "reject" [v, b]]) f := by
  refine ⟨fun α _ v B vector => ⟨vector_geometricProduct s vector B, geometricProduct_vector s vector B⟩, ?_⟩
  intro table v b f g kept first second vector free accepted nonzero
  obtain ⟨A, f', denotes, represents, same⟩ := first
  obtain ⟨B, g', denotes', represents', same'⟩ := second
  obtain ⟨V, inverted⟩ := accepted
  have equal := denotes'.inverse_eq kept inverted
  have norm := (norm_congr s same').trans_ne nonzero
  obtain ⟨w, representsV, inverse⟩ := exists_rightInverse represents' equal norm
  have projected := related_product s (represents.multiply respects_represents s .inner represents') representsV
  have rejected := related_product s (represents.outerProduct respects_represents s represents') representsV
  have sum := project_add_reject s (vector.congr same) ((same' 0).trans free) inverse
  exact ⟨_, _, (denotes.project kept denotes' equal).add kept (denotes.reject kept denotes' equal),
    projected.add respects_represents rejected, fun blade => (sum blade).trans (same blade)⟩

/-- In a degenerate plane the second basis vector splits products with a vector input, and it is made up of its
projection and its rejection by the input. -/
theorem basis_splits_by_vector : ((single 2 1).geometricProduct ⟨0, 1, 1⟩ vectorFunctions).Agrees
      (((single 2 1).leftContraction ⟨0, 1, 1⟩ vectorFunctions).add
        ((single 2 1).outerProduct ⟨0, 1, 1⟩ vectorFunctions)) ∧
    DenotesFunctions .builtin ⟨0, 1, 1⟩
      (.call "add" [.call "project" [.blade [1], vectorInput], .call "reject" [.blade [1], vectorInput]])
      (single 2 1) := by
  have vector : (single 2 1 : Terms Functions).Homogeneous 1 := homogeneous_of_blades (by decide)
  refine ⟨((vector_splits ⟨0, 1, 1⟩).1 Functions (single 2 1) vectorFunctions vector).1, ?_⟩
  exact (vector_splits ⟨0, 1, 1⟩).2 .builtin (.blade [1]) vectorInput (single 2 1) vectorFunctions
    Table.keepsBuiltins_builtin (denotesFunctions_basis (by decide +kernel) rfl) denotesFunctions_vectorInput vector rfl
    (exists_denotes rfl (by decide +kernel)) norm_vectorFunctions_ne_zero

/-! ### A divisor that is not seen to be zero -/

def hiddenVector : Tree := .operation .geometricProduct [hiddenZero, .blade [0]]

def startsOver (divisor : Coeff) : Coeff → Bool
  | .sum _ (.pow base (.num exponent) :: _) => same base divisor && exponent.toInt? == some (-1)
  | _ => false

theorem not_represents_of_startsOver {divisor c : Coeff} (zero : Represents divisor 0)
    (starts : startsOver divisor c = true) (f : Functions) : ¬ Represents c f := by
  intro represents
  obtain ⟨point, means, defined⟩ := zero.exists_point represents
  unfold startsOver at starts
  split at starts
  · rw [Bool.and_eq_true] at starts
    cases defined with
    | sum c terms =>
      cases terms _ List.mem_cons_self with
      | pow base nonzero =>
        obtain rfl := base.eq_of_same means.defined starts.1
        have exponent : (ofInt _).toInt? = some (-1) := eq_of_beq starts.2
        rw [toInt?_ofInt, Option.some.injEq] at exponent
        exact nonzero (by rw [exponent]; decide) means.value_eq
  · cases starts

variable {B : Terms Coeff} {fs : List (Terms Functions)} {ts : List Tree}

theorem represents_norm_zero (s : Signature) {g : Terms Functions} {blade : Nat}
    (represents : Related Represents B g) (same : g.Agrees (single blade 0)) :
    Represents ((B.geometricProduct s B.reverse).coeff 0) 0 := by
  have product := related_product s represents (represents.reverse respects_represents)
  have vanishes : (g.geometricProduct s g.reverse).coeff 0 = 0 := by
    rw [agrees_iff, combination_single, Finsupp.single_zero] at same
    rw [← combination_apply, combination_geometricProduct, same, convolve_zero_left, Finsupp.zero_apply]
  exact vanishes ▸ product.coeff represents_zero 0

theorem evaluate_hiddenVector : evaluate functionEngine ⟨1, 0, 0⟩ hiddenVector = .ok (single 1 0) := by
  have basis : evaluate functionEngine ⟨1, 0, 0⟩ (.blade [0]) = .ok (single 1 (functionEngine.number (.ofInt 1))) := rfl
  rw [hiddenVector, evaluate, evaluateEach, evaluateEach, evaluateEach, evaluate_hiddenZero, basis]
  show Except.ok (single 1 (0 * functionEngine.number (.ofInt 1))) = _
  rw [zero_mul]

/-- What the projection and the rejection of a basis vector by the hidden vector add up to starts with one over the
scalar that is not seen to be zero. -/
theorem startsOver_hiddenVector {V : Terms Coeff} (evaluated : evaluate symbolic ⟨1, 0, 0⟩ hiddenVector = .ok B)
    (inverted : inverse symbolic ⟨1, 0, 0⟩ B = .ok V) :
    startsOver ((B.geometricProduct ⟨1, 0, 0⟩ B.reverse).coeff 0)
      (((((single 1 1).innerProduct ⟨1, 0, 0⟩ B).geometricProduct ⟨1, 0, 0⟩ V).add
        (((single 1 1).outerProduct ⟨1, 0, 0⟩ B).geometricProduct ⟨1, 0, 0⟩ V)).coeff 1) = true := by
  have computed : ((evaluate symbolic ⟨1, 0, 0⟩ hiddenVector).toOption.bind fun B =>
      (inverse symbolic ⟨1, 0, 0⟩ B).toOption.map fun V =>
        startsOver ((B.geometricProduct ⟨1, 0, 0⟩ B.reverse).coeff 0)
          (((((single 1 1).innerProduct ⟨1, 0, 0⟩ B).geometricProduct ⟨1, 0, 0⟩ V).add
            (((single 1 1).outerProduct ⟨1, 0, 0⟩ B).geometricProduct ⟨1, 0, 0⟩ V)).coeff 1)) = some true := by
    decide +kernel
  rw [evaluated] at computed
  simp only [Except.toOption, Option.bind_some, inverted, Option.map_some, Option.some.injEq] at computed
  exact computed

/-- A vector need not be made up of its projection and its rejection by terms that have no scalar part and an inverse
that is accepted: the hidden vector denotes zero, and what the two parts of a basis vector add up to denotes nothing. -/
theorem project_reject_of_hidden_zero : DenotesFunctions .builtin ⟨1, 0, 0⟩ (.blade [0]) (single 1 1) ∧
    DenotesFunctions .builtin ⟨1, 0, 0⟩ hiddenVector (single 1 0) ∧
    (single 1 1 : Terms Functions).Homogeneous 1 ∧ (single 1 0 : Terms Functions).coeff 0 = 0 ∧
    (∃ V, Denotes .builtin symbolic ⟨1, 0, 0⟩ (.call "inverse" [hiddenVector]) V) ∧
    ∀ f, ¬ DenotesFunctions .builtin ⟨1, 0, 0⟩
      (.call "add" [.call "project" [.blade [0], hiddenVector], .call "reject" [.blade [0], hiddenVector]]) f := by
  have kept := Table.keepsBuiltins_builtin
  have hidden : DenotesFunctions .builtin ⟨1, 0, 0⟩ hiddenVector (single 1 0) :=
    denotesFunctions_of_evaluate rfl (isExact_of_integers (by decide +kernel)) (by decide +kernel) evaluate_hiddenVector
  have accepted : ∃ V, Denotes .builtin symbolic ⟨1, 0, 0⟩ (.call "inverse" [hiddenVector]) V :=
    exists_denotes rfl (by decide +kernel)
  refine ⟨denotesFunctions_basis (by decide +kernel) rfl, hidden, homogeneous_of_blades (by decide), rfl, accepted, ?_⟩
  rintro f ⟨A, f', denotes, represents, -⟩
  obtain ⟨B, g, denotesB, representsB, same⟩ := hidden
  obtain ⟨V, inverted⟩ := accepted
  have equal := denotesB.inverse_eq kept inverted
  have basis : Denotes .builtin symbolic ⟨1, 0, 0⟩ (.blade [0]) (single 1 1) := ⟨_, rfl, rfl⟩
  have sum := (basis.project kept denotesB equal).add kept (basis.reject kept denotesB equal)
  obtain rfl := Except.ok.inj (denotes.outcome sum.ends)
  have evaluated : evaluate symbolic ⟨1, 0, 0⟩ hiddenVector = .ok B := by
    obtain ⟨expanded, done, evaluated⟩ := denotesB
    obtain rfl : hiddenVector = expanded := Except.ok.inj done
    exact evaluated
  exact not_represents_of_startsOver (represents_norm_zero ⟨1, 0, 0⟩ representsB same)
    (startsOver_hiddenVector evaluated equal) _ (represents.coeff represents_zero 1)

/-! ### Sandwich products -/

theorem DenotesFunctions.geometricProduct (kept : table.KeepsBuiltins) {t u : Tree} {f g : Terms Functions}
    (first : DenotesFunctions table s t f) (second : DenotesFunctions table s u g) :
    DenotesFunctions table s (.call "geometric_product" [t, u]) (f.geometricProduct s g) := by
  obtain ⟨A, f', denotes, represents, same⟩ := first
  obtain ⟨B, g', denotes', represents', same'⟩ := second
  rw [agrees_iff] at same same'
  refine ⟨_, _, denotes.geometricProduct kept denotes', related_product s represents represents', ?_⟩
  rw [agrees_iff, combination_geometricProduct, combination_geometricProduct, same, same']

theorem DenotesFunctions.sandwichProduct (kept : table.KeepsBuiltins) {r x : Tree} {f g : Terms Functions}
    (first : DenotesFunctions table s r f) (second : DenotesFunctions table s x g) :
    DenotesFunctions table s (.call "sandwich_product" [r, x]) (sandwichProduct s f g) := by
  obtain ⟨A, f', denotes, represents, same⟩ := first
  obtain ⟨B, g', denotes', represents', same'⟩ := second
  rw [agrees_iff] at same same'
  refine ⟨_, _, denotes.sandwichProduct kept denotes', related_product s (related_product s represents represents')
    (represents.reverse respects_represents), ?_⟩
  simp only [agrees_iff, Terms.sandwichProduct, combination_geometricProduct, combination_reverse, same, same']

def productCall : List Tree → Tree
  | [] => .literal (.ofInt 1)
  | t :: ts => ts.foldl (fun product t => .call "geometric_product" [product, t]) t

theorem denotesFunctions_foldl (kept : table.KeepsBuiltins)
    (each : List.Forall₂ (DenotesFunctions table s) ts fs) {r : Tree} {f : Terms Functions}
    (first : DenotesFunctions table s r f) :
    DenotesFunctions table s (ts.foldl (fun product t => .call "geometric_product" [product, t]) r)
      (fs.foldl (fun R v => R.geometricProduct s v) f) := by
  induction each generalizing r f with
  | nil => exact first
  | cons second _ ih => exact ih (first.geometricProduct kept second)

theorem denotesFunctions_productCall (kept : table.KeepsBuiltins)
    (each : List.Forall₂ (DenotesFunctions table s) ts fs) :
    DenotesFunctions table s (productCall ts) (productOf s fs) := by
  cases each with
  | nil =>
    refine denotesFunctions_of_evaluate rfl (isExact_of_integers (by decide)) rfl ?_
    rw [evaluate, number_ofInt, Int.cast_one]
    rfl
  | cons first rest =>
    -- the product of terms starts with the scalar one, and the call does not
    obtain ⟨A, f', denotes, represents, same⟩ := first
    refine denotesFunctions_foldl kept rest ⟨A, f', denotes, represents, ?_⟩
    rw [agrees_iff] at same ⊢
    rw [combination_geometricProduct, combination_single, convolve_one_left, same]

/-- A product of vectors keeps grades: over every commutative ring, the product of vectors on the left of homogeneous
terms and of its reverse on the right gives terms that are homogeneous of the same grade. So if the coefficients of
trees represent rational functions of the host inputs, those of some trees vectors and those of another tree
homogeneous terms, then the sandwich product of the product of the vectors with the other tree denotes homogeneous
terms of the same grade. -/
theorem sandwich_keeps_grade (s : Signature) (k : Nat) :
    (∀ (α : Type) [CommRing α] (vectors : List (Terms α)) (X : Terms α), (∀ v ∈ vectors, v.Homogeneous 1) →
      X.Homogeneous k → (sandwichProduct s (productOf s vectors) X).Homogeneous k) ∧
    ∀ (table : Table) (ts : List Tree) (x : Tree) (fs : List (Terms Functions)) (g : Terms Functions),
      table.KeepsBuiltins → List.Forall₂ (DenotesFunctions table s) ts fs → DenotesFunctions table s x g →
      (∀ f ∈ fs, f.Homogeneous 1) → g.Homogeneous k →
      DenotesFunctions table s (.call "sandwich_product" [productCall ts, x]) (sandwichProduct s (productOf s fs) g) ∧
      (sandwichProduct s (productOf s fs) g).Homogeneous k := by
  refine ⟨fun α _ vectors X graded homogeneous => sandwichProduct_homogeneous s graded homogeneous, ?_⟩
  intro table ts x fs g kept each last graded homogeneous
  exact ⟨(denotesFunctions_productCall kept each).sandwichProduct kept last,
    sandwichProduct_homogeneous s graded homogeneous⟩

def slanted : Terms ℤ := ⟨[(1, 1), (2, 2)], by decide⟩

/-- Between slanted vectors the third basis vector becomes terms that have the blade of all three vectors, but with the
coefficient zero; and a vector input times a degenerate basis vector keeps the grade of the other basis vector. -/
theorem sandwich_keeps_vectors : 7 ∈ (sandwichProduct ⟨1, 1, 1⟩ (productOf ⟨1, 1, 1⟩ [slanted]) (single 4 1)).blades ∧
    (sandwichProduct ⟨1, 1, 1⟩ (productOf ⟨1, 1, 1⟩ [slanted]) (single 4 1)).Homogeneous 1 ∧
    DenotesFunctions .builtin ⟨0, 1, 1⟩
      (.call "sandwich_product" [.call "geometric_product" [vectorInput, .blade [1]], .blade [0]])
      (sandwichProduct ⟨0, 1, 1⟩ (productOf ⟨0, 1, 1⟩ [vectorFunctions, single 2 1]) (single 1 1)) ∧
    (sandwichProduct ⟨0, 1, 1⟩ (productOf ⟨0, 1, 1⟩ [vectorFunctions, single 2 1]) (single 1 1)).Homogeneous 1 := by
  have basis {i : Nat} (one : grade i = 1) : (single i 1 : Terms Functions).Homogeneous 1 :=
    homogeneous_of_blades (by simpa [blades, single] using one)
  have vector : vectorFunctions.Homogeneous 1 := homogeneous_of_blades (by decide)
  refine ⟨by decide +kernel, (sandwich_keeps_grade ⟨1, 1, 1⟩ 1).1 ℤ [slanted] (single 4 1)
    (by simpa using homogeneous_of_blades (by decide)) (homogeneous_of_blades (by decide)), ?_⟩
  exact (sandwich_keeps_grade ⟨0, 1, 1⟩ 1).2 .builtin [vectorInput, .blade [1]] (.blade [0])
    [vectorFunctions, single 2 1] (single 1 1) Table.keepsBuiltins_builtin
    (.cons denotesFunctions_vectorInput (.cons (denotesFunctions_basis (by decide +kernel) rfl) .nil))
    (denotesFunctions_basis (by decide +kernel) rfl) (by simpa using ⟨vector, basis rfl⟩) (basis rfl)

end Bladewright.Evaluation
