import Bladewright.Proofs.Code.ProductKernel
import Bladewright.Proofs.Dense.Integers

/-!
The dense layout, the terms of the algebra and the kernels that are compiled from programs compute the same product.
-/
namespace Bladewright

open Host Coeff Code List

/-! ### Numbers that the kernel computes with -/

namespace Host

theorem actsAs_int : ActsAs Value.int where
  minus _ := rfl
  add _ _ := rfl
  sub _ _ := rfl
  mul _ _ := rfl

theorem actsAs_integer : ActsAs fun n => .tensor (Tensor.integer n) where
  minus n := congrArg (fun e => Except.ok (Value.tensor ⟨.int64, [], [e]⟩)) (Element.neg_ofInteger n)
  add m n := congrArg (fun e => Except.ok (Value.tensor ⟨.int64, [], [e]⟩)) (Element.add_ofInteger m n)
  sub m n := congrArg (fun e => Except.ok (Value.tensor ⟨.int64, [], [e]⟩)) (Element.sub_ofInteger m n)
  mul m n := congrArg (fun e => Except.ok (Value.tensor ⟨.int64, [], [e]⟩)) (Element.mul_ofInteger m n)

/-- The value of arithmetic code in a ring, where names stand for lists of components. -/
def Expr.valueIn {α : Type} [CommRing α] (inputs : List (String × List α)) : Expr → Option α
  | .unary .minus e => (e.valueIn inputs).map (- ·)
  | .binary .add a b => do return (← a.valueIn inputs) + (← b.valueIn inputs)
  | .binary .sub a b => do return (← a.valueIn inputs) - (← b.valueIn inputs)
  | .binary .mul a b => do return (← a.valueIn inputs) * (← b.valueIn inputs)
  | .call (.name "getcomponent") [.name source, .literal (.int i)] [] => do (← inputs.lookup source)[i.toNat]?
  | _ => none

theorem interprets_valueIn {α : Type} [CommRing α] (inputs : List (String × List α)) :
    Interprets fun _ c x => c.valueIn inputs = some x where
  deeper value _ := value
  minus operand := by
    rw [Expr.valueIn, operand]
    rfl
  add left right := by
    rw [Expr.valueIn, left, right]
    rfl
  sub left right := by
    rw [Expr.valueIn, left, right]
    rfl
  mul left right := by
    rw [Expr.valueIn, left, right]
    rfl

end Host

namespace Dense

open Terms

variable {s : Signature}

/-! ### All grades -/

def allGrades (s : Signature) : List ℤ := (List.range (s.dimension + 1)).map Int.ofNat

theorem bladesOf_allGrades (s : Signature) : bladesOf s (allGrades s) = .ok (everyBlade s.dimension) := by
  have sorted : (allGrades s).mergeSort (· ≤ ·) = allGrades s := by
    refine mergeSort_of_pairwise (Evaluation.ascending_all.imp fun less => ?_)
    simpa using le_of_lt less
  rw [bladesOf, sorted, allGrades, mapM_map]
  have lists : (List.range (s.dimension + 1)).mapM (fun k => (.ok (Blade.ofGrade s.dimension k) : Except Error _)) =
      .ok ((List.range (s.dimension + 1)).map (Blade.ofGrade s.dimension)) := Outcome.mapM_ok fun _ _ => rfl
  show (do return List.flatten (← (List.range (s.dimension + 1)).mapM fun k =>
    (.ok (Blade.ofGrade s.dimension k) : Except Error _))) = _
  rw [lists]
  rfl

section

variable {α : Type} [CommRing α]

def productByRows (s : Signature) (a b : List α) : List α :=
  gatherRow (everyBlade s.dimension) (productRow (.ofRing α) s
    (scatterRow (.ofRing α) s ((everyBlade s.dimension).zip a))
    (scatterRow (.ofRing α) s ((everyBlade s.dimension).zip b)))

omit [CommRing α] in
theorem within_ofComponents {a : List α} (complete : a.length = s.size) :
    (ofComponents s.dimension a).Within s.dimension := by
  intro blade mem
  rw [blades, entries_ofComponents complete, map_fst_zip (by rw [length_everyBlade, complete]; rfl)] at mem
  exact mem_everyBlade.mp mem

theorem scatterRow_everyBlade {a : List α} (complete : a.length = s.size) :
    scatterRow (.ofRing α) s ((everyBlade s.dimension).zip a) = (ofComponents s.dimension a).row s := by
  rw [← forall₂_eq_eq_eq]
  refine represents_ofRing.scatterRow ?_
  rw [entries_ofComponents complete, forall₂_same]
  exact fun entry _ => ⟨rfl, rfl⟩

theorem productByRows_eq {a b : List α} (complete : a.length = s.size) (complete' : b.length = s.size) :
    productByRows s a b = productComponents s a b := by
  have product := represents_ofRing.productRow (s := s) (forall₂_refl _) (within_ofComponents complete)
    (forall₂_refl ((ofComponents s.dimension b).row s))
  rw [productByRows, scatterRow_everyBlade complete, scatterRow_everyBlade complete', productComponents]
  rw [← forall₂_eq_eq_eq]
  exact forall₂_gatherRow product fun blade mem => mem_everyBlade.mp mem

theorem exists_row {a : List α} (complete : a.length = s.size) :
    ∃ A : Terms α, A.Within s.dimension ∧ A.row s = a := by
  have blades : ((List.range s.size).zip a).map (·.1) = List.range s.size :=
    map_fst_zip (by rw [length_range, complete])
  have entries : (ofList ((List.range s.size).zip a)).entries = (List.range s.size).zip a :=
    entries_ofList (by rw [blades]; exact nodup_range)
  refine ⟨ofList ((List.range s.size).zip a), fun blade mem => ?_, ?_⟩
  · rw [Terms.blades, entries, blades] at mem
    exact mem_range.mp mem
  · have listed := map_coeff_blades (ofList ((List.range s.size).zip a))
    rwa [Terms.blades, coefficients, entries, blades,
      map_snd_zip (by rw [length_range, complete])] at listed

end

/-! ### Agreement -/

/-- Over a ring, every row is the row of terms, and rows are multiplied, reversed and cut by grade as terms are. -/
structure AgreesOnRows (s : Signature) (α : Type) [CommRing α] : Prop where
  terms (a : List α) : a.length = s.size → ∃ A : Terms α, A.Within s.dimension ∧ A.row s = a
  product (A B : Terms α) : A.Within s.dimension →
    productRow (.ofRing α) s (A.row s) (B.row s) = (A.geometricProduct s B).row s
  reverse (A : Terms α) : reverseRow (.ofRing α) (A.row s) = A.reverse.row s
  part (A : Terms α) (k : ℤ) : gradeRow (.ofRing α) k (A.row s) = (Evaluation.partOf A k).row s

theorem agreesOnRows (s : Signature) (α : Type) [CommRing α] : AgreesOnRows s α where
  terms a := exists_row
  product A B within := by
    rw [← forall₂_eq_eq_eq]
    exact represents_ofRing.productRow (forall₂_refl _) within (forall₂_refl _)
  reverse A := by
    rw [← forall₂_eq_eq_eq]
    exact represents_ofRing.reverseRow (forall₂_refl _)
  part A k := by
    rw [← forall₂_eq_eq_eq]
    exact represents_ofRing.gradeRow (forall₂_refl _) k

/-- Tensors of integers are multiplied, reversed and cut by grade as terms over the integers are. -/
structure AgreesOnTensors (s : Signature) : Prop where
  product (A B : Terms ℤ) : A.Within s.dimension →
    geometricProduct s (.tensor (.integers (A.row s))) (.tensor (.integers (B.row s))) =
      .ok (.integers ((A.geometricProduct s B).row s))
  reverse (A : Terms ℤ) : Dense.reverse s (.tensor (.integers (A.row s))) = .ok (.integers (A.reverse.row s))
  part (A : Terms ℤ) (k : ℤ) :
    gradePart s k (.tensor (.integers (A.row s))) = .ok (.integers ((Evaluation.partOf A k).row s))

theorem agreesOnTensors (s : Signature) : AgreesOnTensors s where
  product _ _ := geometricProduct_integers
  reverse _ := reverse_integers
  part _ := gradePart_integers

/-- A kernel of two inputs returns the components of their product as the dense layout gives them: its code in exact
arithmetic over every ring, and a call with sequences of integers or of tensors of integers. -/
structure ReturnsProducts (s : Signature) (kernel : Kernel) : Prop where
  code : ∃ codes, kernel.function = productFunction codes ∧
    ∀ (α : Type) [CommRing α] (a b : List α), a.length = s.size → b.length = s.size →
      codes.mapM (Expr.valueIn [("a", a), ("b", b)]) = some (productByRows s a b)
  integers (a b : List ℤ) (u v : Value) : a.length = s.size → b.length = s.size → u.Holds (a.map .int) →
    v.Holds (b.map .int) → kernel.call [u, v] = .ok (.tuple ((productByRows s a b).map .int))
  tensors (a b : List ℤ) (u v : Value) : a.length = s.size → b.length = s.size →
    u.Holds (a.map fun n => .tensor (.integer n)) → v.Holds (b.map fun n => .tensor (.integer n)) →
      ∃ A B C ts, embed s u (allGrades s) = .ok A ∧ embed s v (allGrades s) = .ok B ∧
        geometricProduct s (.tensor A) (.tensor B) = .ok C ∧ extract s (.tensor C) (allGrades s) = .ok ts ∧
        kernel.call [u, v] = .ok (.tuple (ts.map .tensor))

section

variable {codes : List Expr} (computes : ComputesProduct s (.name "a") (.name "b") codes)
include computes

theorem valueIn_codes {α : Type} [CommRing α] {a b : List α} (complete : a.length = s.size)
    (complete' : b.length = s.size) :
    codes.mapM (Expr.valueIn [("a", a), ("b", b)]) = some (productByRows s a b) := by
  have values := computes (interprets_valueIn [("a", a), ("b", b)]) complete complete'
    (fun _ inside => getElem?_eq_some_getD (complete ▸ inside))
    fun _ inside => getElem?_eq_some_getD (complete' ▸ inside)
  rw [productByRows_eq complete complete']
  generalize productComponents s a b = xs at values
  clear computes
  induction values with
  | nil => rfl
  | cons first _ ih =>
    rw [mapM_cons, first, ih]
    rfl

theorem returnsProducts : ReturnsProducts s (productKernel codes) where
  code := ⟨codes, rfl, fun α _ a b => valueIn_codes computes⟩
  integers a b u v complete complete' left right := by
    rw [productByRows_eq complete complete']
    exact call_computesProduct computes actsAs_int complete complete' left right
  tensors a b u v complete complete' left right := by
    have listed := bladesOf_allGrades s
    have every : (everyBlade s.dimension).length = s.size := length_everyBlade _
    have size : 0 < s.size := Nat.two_pow_pos _
    refine ⟨_, _, _, _, embed_integers listed (entries_ofComponents complete) (complete.trans every.symm) ?_ left,
      embed_integers listed (entries_ofComponents complete') (complete'.trans every.symm) ?_ right,
      geometricProduct_integers (within_ofComponents complete),
      extract_integers listed fun blade mem => mem_everyBlade.mp mem, ?_⟩
    · exact ne_nil_of_length_pos (complete ▸ size)
    · exact ne_nil_of_length_pos (complete' ▸ size)
    · rw [call_computesProduct computes actsAs_integer complete complete' left right, productComponents, map_map,
        map_map]
      rfl

end

/-- In every algebra that has a dense layout, the dense layout agrees with the terms of the algebra. In one to eight
dimensions it agrees with the kernel of the product as well; from nine on there is no such kernel, as the code of a sum is
nested as deep as it has terms. -/
theorem agrees_with_terms_and_kernel (s : Signature) (small : s.dimension ≤ maxDimension) :
    check s = .ok () ∧ (∀ (α : Type) [CommRing α], AgreesOnRows s α) ∧ AgreesOnTensors s ∧
      ∀ signature, Signature.ofSpec signature = .ok s →
        (1 ≤ s.dimension → s.dimension ≤ 8 → ∃ kernel,
          (Kernel.ofJob (productJob signature) ["a", "b"] "kernel" .builtin).outcome.1 = .ok kernel ∧
            ReturnsProducts s kernel) ∧
        (9 ≤ s.dimension →
          (Kernel.ofJob (productJob signature) ["a", "b"] "kernel" .builtin).outcome.1 = .error (.code .tooDeep)) := by
  refine ⟨if_pos small, fun α _ => agreesOnRows s α, agreesOnTensors s, fun signature signed => ⟨?_, ?_⟩⟩
  · intro positive few
    obtain ⟨codes, made, computes⟩ := ofJob_product signed positive few
    exact ⟨productKernel codes, made, returnsProducts computes⟩
  · exact fun many => ofJob_product_deep signed many small

/-- A dense layout of nine dimensions has no kernel of the product to agree with. -/
theorem no_kernel_of_nine_dimensions :
    Signature.dimension ⟨0, 0, 9⟩ ≤ maxDimension ∧ ¬∃ kernel,
      (Kernel.ofJob (productJob (.tuple [.int 0, .int 0, .int 9])) ["a", "b"] "kernel" .builtin).outcome.1 =
        .ok kernel := by
  refine ⟨by decide, fun ⟨kernel, made⟩ => ?_⟩
  rw [ofJob_product_deep (s := ⟨0, 0, 9⟩) rfl (by decide) (by decide)] at made
  cases made

theorem agrees_in_degenerate_plane :
    Signature.dimension ⟨1, 0, 1⟩ ≤ maxDimension ∧ (Terms.single 1 3).Within 2 ∧
      productRow (.ofRing ℤ) ⟨1, 0, 1⟩ ((Terms.single 1 3).row ⟨1, 0, 1⟩) ((Terms.single 2 5).row ⟨1, 0, 1⟩) =
        ((Terms.single 1 3).geometricProduct ⟨1, 0, 1⟩ (Terms.single 2 5)).row ⟨1, 0, 1⟩ ∧
      ∃ kernel, (Kernel.ofJob (productJob (.tuple [.int 1, .int 0, .int 1])) ["a", "b"] "kernel" .builtin).outcome.1 =
          .ok kernel ∧
        kernel.call [.tuple [.int 1, .int 2, .int 3, .int 4], .list [.int 5, .int 6, .int 7, .int 8]] =
          .ok (.tuple [.int 17, .int 16, .int 14, .int 24]) := by
  have small : Signature.dimension ⟨1, 0, 1⟩ ≤ maxDimension := by decide
  obtain ⟨-, rows, -, compiled⟩ := agrees_with_terms_and_kernel ⟨1, 0, 1⟩ small
  obtain ⟨kernel, accepted, returns⟩ :=
    (compiled (.tuple [.int 1, .int 0, .int 1]) rfl).1 (by decide) (by decide)
  have within : (Terms.single 1 (3 : ℤ)).Within 2 := by
    intro blade mem
    simp [Terms.single, Terms.blades] at mem
    omega
  refine ⟨small, within, (rows ℤ).product _ _ within, kernel, accepted, ?_⟩
  have product : productByRows ⟨1, 0, 1⟩ [1, 2, 3, 4] [5, 6, 7, 8] = [(17 : ℤ), 16, 14, 24] := by decide +kernel
  have called := returns.integers [1, 2, 3, 4] [5, 6, 7, 8] _ _ rfl rfl (.inl rfl) (.inr rfl)
  rw [product] at called
  exact called

end Dense

end Bladewright
