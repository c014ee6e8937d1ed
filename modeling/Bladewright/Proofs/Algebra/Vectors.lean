import Bladewright.Proofs.Algebra.Contractions

/-!
Products with vectors.
-/
namespace Bladewright

open Finsupp

namespace Blade

/-! ### The sign of a product with a basis vector -/

theorem reverseSign_succ (k : Nat) : reverseSign (k + 1 : ℕ) = (-1) ^ k * reverseSign k := by
  rw [reverseSign_natCast, reverseSign_natCast, Nat.choose_succ_succ', Nat.choose_one_right, pow_add]

theorem reverseSign_mul_self (k : ℤ) : reverseSign k * reverseSign k = 1 := by
  rcases reverseSign_cases k with sign | sign <;> simp [sign]

section

variable {a : Nat} (vector : grade a = 1) (b : Nat)
include vector

theorem productSign_swap (s : Signature) {sign : ℤ}
    (reversed : reverseSign (grade (a ^^^ b)) = sign * reverseSign (grade b)) :
    productSign s b a = sign * productSign s a b := by
  have one : reverseSign (grade a) = 1 := by rw [vector]; rfl
  have exchanged := reverseSign_productSign s a b
  rw [reversed, one, mul_one] at exchanged
  calc productSign s b a = productSign s b a * reverseSign (grade b) * reverseSign (grade b) := by
        rw [mul_assoc, reverseSign_mul_self, mul_one]
    _ = sign * productSign s a b * (reverseSign (grade b) * reverseSign (grade b)) := by rw [← exchanged]; ring
    _ = _ := by rw [reverseSign_mul_self, mul_one]

theorem productSign_swap_of_apart (s : Signature) (apart : a &&& b = 0) :
    productSign s b a = involutionSign (grade b) * productSign s a b := by
  refine productSign_swap vector b s ?_
  rw [(and_eq_zero_iff a b).mp apart, vector, Nat.add_comm, reverseSign_succ, involutionSign_natCast]

theorem productSign_swap_of_inside (s : Signature) (inside : a &&& b = a) :
    productSign s b a = -involutionSign (grade b) * productSign s a b := by
  refine productSign_swap vector b s ?_
  have grades : grade b = grade (a ^^^ b) + 1 := by
    have lost := grade_xor a b
    rw [inside] at lost
    omega
  rw [grades, reverseSign_succ, involutionSign_natCast, pow_succ, mul_neg_one, neg_neg, ← mul_assoc, ← mul_pow,
    neg_one_mul, neg_neg, one_pow, one_mul]

end

end Blade

open Blade

/-! ### Combinations of one grade -/

variable {α : Type} [CommRing α]

def Graded (k : Nat) (X : Nat →₀ α) : Prop := ∀ blade ∈ X.support, grade blade = k

variable {w : Nat → Nat → Int}

theorem mem_support_convolve {X Y : Nat →₀ α} {blade : Nat} (present : blade ∈ (convolve w X Y).support) :
    ∃ a ∈ X.support, ∃ b ∈ Y.support, w a b ≠ 0 ∧ a ^^^ b = blade := by
  obtain ⟨a, left, present⟩ := Finset.mem_biUnion.mp (support_sum present)
  obtain ⟨b, right, present⟩ := Finset.mem_biUnion.mp (support_sum present)
  have same := Finset.mem_singleton.mp (support_single_subset present)
  refine ⟨a, left, b, right, fun zero => ?_, same.symm⟩
  rw [zero, zero_smul, single_zero] at present
  exact absurd present (Finset.notMem_empty _)

namespace Graded

variable {k : Nat} {X Y : Nat →₀ α}

theorem sub (left : Graded k X) (right : Graded k Y) : Graded k (X - Y) := by
  intro blade present
  rcases Finset.mem_union.mp (support_sub present) with present | present
  · exact left blade present
  · exact right blade present

theorem relabel (graded : Graded k X) (sign : Nat → Int) : Graded k (relabel id sign X) := by
  intro blade present
  obtain ⟨a, there, present⟩ := Finset.mem_biUnion.mp (support_sum present)
  rw [Finset.mem_singleton.mp (support_single_subset present)]
  exact graded a there

end Graded

/-! ### Weights -/

theorem convolve_sub_weight (w w' : Nat → Nat → Int) (X Y : Nat →₀ α) :
    convolve (fun a b => w a b - w' a b) X Y = convolve w X Y - convolve w' X Y := by
  rw [eq_sub_iff_add_eq, ← convolve_add_weight]
  simp only [sub_add_cancel]

theorem convolve_sub_right (w : Nat → Nat → Int) (X Y Y' : Nat →₀ α) :
    convolve w X (Y - Y') = convolve w X Y - convolve w X Y' := by
  rw [eq_sub_iff_add_eq, ← convolve_add_right, sub_add_cancel]

theorem convolve_relabel_right (w : Nat → Nat → Int) (sign : Nat → Int) (X Y : Nat →₀ α) :
    convolve w X (relabel id sign Y) = convolve (fun a b => sign b * w a b) X Y := by
  induction Y using induction_linear with
  | zero => simp
  | add Y Y' ih ih' => rw [relabel_add, convolve_add_right, ih, ih', convolve_add_right]
  | single b y =>
    induction X using induction_linear with
    | zero => simp
    | add X X' ih ih' => rw [convolve_add_left, ih, ih', convolve_add_left]
    | single a x =>
      rw [relabel_single, convolve_single, convolve_single, mul_smul_comm, smul_smul, id_eq, mul_comm (w a b)]

theorem convolve_self {X : Nat →₀ α} (equal : ∀ a ∈ X.support, w a a = 0)
    (skew : ∀ a ∈ X.support, ∀ b ∈ X.support, w a b + w b a = 0) : convolve w X X = 0 := by
  induction X using Finsupp.induction with
  | zero => simp
  | single_add a x X fresh nonzero ih =>
    rw [support_single_add fresh nonzero, Finset.forall_mem_cons] at equal
    simp only [support_single_add fresh nonzero, Finset.forall_mem_cons] at skew
    -- the new blade with itself, with the others on both sides, and the others among themselves
    have itself : convolve w (single a x) (single a x) = 0 := by
      rw [convolve_single, equal.1, zero_smul, single_zero]
    have both : convolve w (single a x) X + convolve w X (single a x) = 0 := by
      rw [convolve_flip w X, ← convolve_add_weight]
      calc _ = convolve (fun _ _ => 0) (single a x) X := convolve_congr fun b there c there' => by
            rw [Finset.mem_singleton.mp (support_single_subset there)]
            exact skew.1.2 c there'
        _ = 0 := by simp [convolve]
    have others := ih equal.2 fun b there c there' => (skew.2 b there).2 c there'
    rw [convolve_add_left, convolve_add_right, convolve_add_right, itself, others, zero_add, add_zero, both]

namespace Terms

variable (s : Signature)

/-! ### A vector on either side -/

section

variable {a : Nat} (vector : grade a = 1) (b : Nat)
include vector

theorem disjoint_vector : Selection.disjoint a b = !Selection.left a b := by
  have shared := (grade_and_le a b).1
  have nonzero : a ≠ 0 := by
    rintro rfl
    cases vector
  rw [Bool.eq_iff_iff, Bool.not_eq_true', Bool.eq_false_iff, ne_eq, left_iff, disjoint_iff]
  constructor
  · intro apart inside
    exact nonzero (inside.symm.trans apart)
  · intro outside
    rw [and_eq_left_iff] at outside
    exact eq_zero_of_grade (by omega)

theorem productSign_vector : productSign s a b = weight s .left a b + weight s .disjoint a b := by
  simp only [weight, disjoint_vector vector]
  cases Selection.left a b <;> simp

theorem productSign_vector_right : productSign s b a = weight s .right b a + weight s .disjoint b a := by
  simp only [weight, disjoint_symmetric b a, ← left_flip a b, disjoint_vector vector]
  cases Selection.left a b <;> simp

theorem productSign_vector_swap : productSign s b a = involutionSign (grade b) * weight s .disjoint a b -
      involutionSign (grade b) * weight s .left a b := by
  cases selected : Selection.left a b with
  | true =>
    have inside := (left_iff a b).mp selected
    simp [weight, disjoint_vector vector, selected, productSign_swap_of_inside vector b s inside]
  | false =>
    have apart : a &&& b = 0 := (disjoint_iff a b).mp (by rw [disjoint_vector vector, selected]; rfl)
    simp [weight, disjoint_vector vector, selected, productSign_swap_of_apart vector b s apart]

theorem weight_disjoint_skew {b : Nat} (vector' : grade b = 1) :
    weight s .disjoint a b + weight s .disjoint b a = 0 := by
  simp only [weight, disjoint_symmetric b a]
  split
  · rename_i apart
    have minus : involutionSign (1 : ℕ) = -1 := rfl
    rw [productSign_swap_of_apart vector b s ((disjoint_iff a b).mp apart), vector', minus, neg_one_mul, add_neg_cancel]
  · rfl

end

theorem grade_of_left {a b : Nat} (nonzero : weight s .left a b ≠ 0) : grade (a ^^^ b) + grade a = grade b := by
  have inside := (left_iff a b).mp (Classical.not_not.mp fun outside => nonzero (if_neg outside))
  have lost := grade_xor a b
  rw [inside] at lost
  omega

theorem grade_of_disjoint {a b : Nat} (nonzero : weight s .disjoint a b ≠ 0) : grade (a ^^^ b) = grade a + grade b :=
  (and_eq_zero_iff a b).mp ((disjoint_iff a b).mp (Classical.not_not.mp fun shared => nonzero (if_neg shared)))

section

variable {v : Nat →₀ α} (vector : Graded 1 v) (X : Nat →₀ α)
include vector

theorem convolve_vector_left :
    convolve (productSign s) v X = convolve (weight s .left) v X + convolve (weight s .disjoint) v X := by
  rw [← convolve_add_weight]
  exact convolve_congr fun a there b _ => productSign_vector s (vector a there) b

theorem convolve_vector_right :
    convolve (productSign s) X v = convolve (weight s .right) X v + convolve (weight s .disjoint) X v := by
  rw [← convolve_add_weight]
  exact convolve_congr fun b _ a there => productSign_vector_right s (vector a there) b

theorem convolve_vector_swap : convolve (productSign s) X v =
      convolve (weight s .disjoint) v (relabel id (fun blade => involutionSign (grade blade)) X) -
        convolve (weight s .left) v (relabel id (fun blade => involutionSign (grade blade)) X) := by
  rw [convolve_flip, convolve_relabel_right, convolve_relabel_right, ← convolve_sub_weight]
  exact convolve_congr fun a there b _ => productSign_vector_swap s (vector a there) b

omit X in
theorem outer_self : convolve (weight s .disjoint) v v = 0 := by
  refine convolve_self (fun a there => ?_) fun a there b there' =>
    weight_disjoint_skew s (vector a there) (vector b there')
  have inside : Selection.left a a = true := (left_iff a a).mpr (Nat.and_self a)
  rw [weight, disjoint_vector (vector a there), inside]
  rfl

/-- A vector on both sides of a combination of one grade. With the second vector moved next to the first, both
contractions or both outer products are by the outer product of the vector with itself, which is zero. One of each
restores the grade. -/
theorem graded_between {k : Nat} {X : Nat →₀ α} (graded : Graded k X) :
    Graded k (convolve (productSign s) v (convolve (productSign s) X v)) := by
  have graded' := graded.relabel fun blade => involutionSign (grade blade)
  rw [convolve_vector_swap s vector X]
  generalize relabel id (fun blade => involutionSign (grade blade)) X = Y at graded' ⊢
  have contracted : convolve (weight s .left) v (convolve (weight s .left) v Y) = 0 := by
    rw [← convolve_weight_assoc s sameTriples_left, outer_self s vector, convolve_zero_left]
  have extended : convolve (weight s .disjoint) v (convolve (weight s .disjoint) v Y) = 0 := by
    rw [← convolve_weight_assoc s sameTriples_disjoint, outer_self s vector, convolve_zero_left]
  rw [convolve_sub_right, convolve_vector_left s vector, convolve_vector_left s vector, contracted, extended, add_zero,
    zero_add]
  refine Graded.sub ?_ ?_
  · intro blade present
    obtain ⟨a, first, _, inner, selected, rfl⟩ := mem_support_convolve present
    obtain ⟨b, second, c, there, selected', rfl⟩ := mem_support_convolve inner
    have lost := grade_of_left s selected
    have added := grade_of_disjoint s selected'
    have grades := graded' c there
    rw [vector a first] at lost
    rw [vector b second] at added
    omega
  · intro blade present
    obtain ⟨a, first, _, inner, selected, rfl⟩ := mem_support_convolve present
    obtain ⟨b, second, c, there, selected', rfl⟩ := mem_support_convolve inner
    have added := grade_of_disjoint s selected
    have lost := grade_of_left s selected'
    have grades := graded' c there
    rw [vector a first] at added
    rw [vector b second] at lost
    omega

end

/-! ### Homogeneous terms -/

def Homogeneous (k : Nat) (A : Terms α) : Prop := ∀ blade, grade blade ≠ k → A.coeff blade = 0

variable {A B R : Terms α} {k : Nat} {vectors : List (Terms α)}

theorem homogeneous_iff : A.Homogeneous k ↔ Graded k A.combination := by
  simp only [Homogeneous, Graded, mem_support_iff, combination_apply]
  exact forall_congr' fun blade => not_imp_comm

theorem homogeneous_of_blades (same : ∀ blade ∈ A.blades, grade blade = k) : A.Homogeneous k :=
  fun _ differ => coeff_eq_zero fun present => differ (same _ present)

theorem Homogeneous.combination_reverse {v : Terms α} (vector : v.Homogeneous 1) :
    v.reverse.combination = v.combination := by
  rw [Terms.combination_reverse]
  refine (sum_congr fun blade there => ?_).trans (sum_single v.combination)
  have one : reverseSign (grade blade) = 1 := by
    rw [homogeneous_iff.mp vector blade there]
    rfl
  simp only [one, one_smul, id_eq]

theorem Homogeneous.congr (homogeneous : A.Homogeneous k) (agree : B.Agrees A) : B.Homogeneous k :=
  fun blade other => (agree blade).trans (homogeneous blade other)

theorem vector_geometricProduct {v : Terms α} (vector : v.Homogeneous 1) (B : Terms α) :
    (v.geometricProduct s B).Agrees ((v.leftContraction s B).add (v.outerProduct s B)) := by
  rw [agrees_iff, combination_geometricProduct, combination_add, leftContraction, outerProduct_eq_multiply,
    combination_multiply, combination_multiply]
  exact convolve_vector_left s (homogeneous_iff.mp vector) _

theorem geometricProduct_vector {v : Terms α} (vector : v.Homogeneous 1) (B : Terms α) :
    (B.geometricProduct s v).Agrees ((B.rightContraction s v).add (B.outerProduct s v)) := by
  rw [agrees_iff, combination_geometricProduct, combination_add, rightContraction, outerProduct_eq_multiply,
    combination_multiply, combination_multiply]
  exact convolve_vector_right s (homogeneous_iff.mp vector) _

theorem combination_vector_innerProduct {v : Terms α} (vector : v.Homogeneous 1) (free : B.coeff 0 = 0) :
    (v.innerProduct s B).combination = (v.leftContraction s B).combination := by
  rw [innerProduct, leftContraction, combination_multiply, combination_multiply]
  refine convolve_congr fun a there b there' => ?_
  have one : grade a = 1 := homogeneous_iff.mp vector a there
  have positive : 1 ≤ grade b := by
    refine Nat.one_le_iff_ne_zero.mpr fun zero => mem_support_iff.mp there' ?_
    rw [eq_zero_of_grade zero, combination_apply, free]
  simp [weight, Selection.inner, Selection.left, one, positive]

/-- A vector is made up of its projection and its rejection, by any terms that have an inverse and no scalar part. -/
theorem project_add_reject {v W : Terms α} (vector : v.Homogeneous 1) (free : B.coeff 0 = 0)
    (inverse : (B.geometricProduct s W).Agrees (single 0 1)) :
    (((v.innerProduct s B).geometricProduct s W).add ((v.outerProduct s B).geometricProduct s W)).Agrees v := by
  have split := vector_geometricProduct s vector B
  rw [agrees_iff, combination_geometricProduct, combination_add] at split
  rw [agrees_iff, combination_geometricProduct, combination_single] at inverse
  rw [agrees_iff, combination_add, combination_geometricProduct, combination_geometricProduct, ← convolve_add_left,
    combination_vector_innerProduct s vector free, ← split, convolve_productSign_assoc, inverse, convolve_one_right]

/-! ### Products of vectors -/

def productOf (factors : List (Terms α)) : Terms α :=
  factors.foldl (fun R v => R.geometricProduct s v) (single 0 1)

def sandwichProduct (R X : Terms α) : Terms α := (R.geometricProduct s X).geometricProduct s R.reverse

def KeepsGrades (R : Terms α) : Prop :=
  ∀ (k : Nat) (X : Terms α), X.Homogeneous k → (sandwichProduct s R X).Homogeneous k

theorem keepsGrades_one : KeepsGrades s (single 0 1 : Terms α) := by
  intro k X homogeneous
  rw [homogeneous_iff] at homogeneous ⊢
  have reversed : (single 0 1 : Terms α).reverse = single 0 1 := by
    have scalar : reverseSign (grade 0) = 1 := rfl
    simp [reverse, map, single, scalar, signed]
  rw [sandwichProduct, reversed, combination_geometricProduct, combination_geometricProduct, combination_single,
    convolve_one_left, convolve_one_right]
  exact homogeneous

theorem KeepsGrades.vector {v : Terms α} (keeps : KeepsGrades s R) (vector : v.Homogeneous 1) :
    KeepsGrades s (R.geometricProduct s v) := by
  intro k X homogeneous
  have between : (v.geometricProduct s (X.geometricProduct s v)).Homogeneous k := by
    rw [homogeneous_iff, combination_geometricProduct, combination_geometricProduct]
    exact graded_between s (homogeneous_iff.mp vector) (homogeneous_iff.mp homogeneous)
  have reversed : (R.geometricProduct s v).reverse.combination =
      convolve (productSign s) v.combination R.reverse.combination := by
    have exchanged : (R.geometricProduct s v).reverse.Same (v.reverse.geometricProduct s R.reverse) :=
      reverse_multiply s (fun _ _ => rfl) R v
    rw [(same_iff.mp exchanged).2, combination_geometricProduct, vector.combination_reverse]
  refine (keeps k _ between).congr (agrees_iff.mpr ?_)
  simp only [sandwichProduct, combination_geometricProduct, reversed, convolve_productSign_assoc]

theorem keepsGrades_foldl (graded : ∀ v ∈ vectors, v.Homogeneous 1)
    (keeps : KeepsGrades s R) : KeepsGrades s (vectors.foldl (fun R v => R.geometricProduct s v) R) := by
  induction vectors generalizing R with
  | nil => exact keeps
  | cons v vectors ih =>
    rw [List.forall_mem_cons] at graded
    exact ih graded.2 (keeps.vector s graded.1)

/-- Multiplication by vectors on one side and by the same vectors in the opposite order on the other keeps grades. -/
theorem sandwichProduct_homogeneous (graded : ∀ v ∈ vectors, v.Homogeneous 1)
    {X : Terms α} (homogeneous : X.Homogeneous k) : (sandwichProduct s (productOf s vectors) X).Homogeneous k :=
  keepsGrades_foldl s graded (keepsGrades_one s) k X homogeneous

end Terms

end Bladewright
