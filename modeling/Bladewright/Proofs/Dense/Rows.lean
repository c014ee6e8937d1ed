import Bladewright.Dense
import Bladewright.Proofs.Algebra.GradeParts
import Bladewright.Proofs.Blade.Involution
import Bladewright.Proofs.Code.Inputs

/-!
Rows of coefficients against terms. A row that stands for terms has the coefficient of every blade at its place, and
the product, the reverse and the parts of rows stand for those of the terms.
-/
namespace Bladewright

open List Terms Blade

variable {α β : Type} [CommRing α]

/-! ### Coefficients of a product over a ring -/

theorem convolve_apply (weight : Nat → Nat → Int) (X Y : Nat →₀ α) (k : Nat) :
    convolve weight X Y k = X.sum fun a x => weight a (a ^^^ k) • (x * Y (a ^^^ k)) := by
  induction X using Finsupp.induction_linear with
  | zero => simp
  | add X X' ih ih' =>
    rw [convolve_add_left, Finsupp.add_apply, ih, ih', Finsupp.sum_add_index']
    · simp
    · intro a x x'
      rw [add_mul, smul_add]
  | single a x =>
    rw [Finsupp.sum_single_index (by simp)]
    induction Y using Finsupp.induction_linear with
    | zero => simp
    | add Y Y' ih ih' => rw [convolve_add_right, Finsupp.add_apply, ih, ih', Finsupp.add_apply, mul_add, smul_add]
    | single b y =>
      rw [convolve_single]
      by_cases here : a ^^^ b = k
      · have right : a ^^^ k = b := by rw [← here, ← Nat.xor_assoc, Nat.xor_self, Nat.zero_xor]
        rw [here, right, Finsupp.single_eq_same, Finsupp.single_eq_same]
      · have right : a ^^^ k ≠ b := by
          rintro rfl
          exact here (by rw [← Nat.xor_assoc, Nat.xor_self, Nat.zero_xor])
        rw [Finsupp.single_eq_of_ne (Ne.symm here), Finsupp.single_eq_of_ne right, mul_zero, smul_zero]

namespace Terms

/-- The coefficients of all blades of an algebra, in the order of the blades as sets of bits. -/
def row (s : Signature) (A : Terms α) : List α := (List.range s.size).map A.coeff

variable {s : Signature}

@[simp] theorem length_row (A : Terms α) : (A.row s).length = s.size := by simp [row]

theorem coeff_geometricProduct {A : Terms α} (within : A.Within s.dimension) (B : Terms α) (k : Nat) :
    (A.geometricProduct s B).coeff k = ((List.range s.size).map fun i =>
      A.coeff i * B.coeff (i ^^^ k) * (productSign s i (i ^^^ k) : α)).sum := by
  have support : A.combination.support ⊆ Finset.range s.size := fun blade present =>
    Finset.mem_range.mpr (within blade (mem_blades_of_support present))
  rw [← combination_apply, combination_geometricProduct, convolve_apply,
    Finsupp.sum_of_support_subset _ support _ fun a _ => by rw [zero_mul, smul_zero]]
  show _ = ∑ i ∈ Finset.range s.size, A.coeff i * B.coeff (i ^^^ k) * (productSign s i (i ^^^ k) : α)
  refine Finset.sum_congr rfl fun i _ => ?_
  rw [combination_apply, combination_apply, zsmul_eq_mul, mul_comm]

omit [CommRing α] in
theorem get?_map (f : Nat → α → α) (A : Terms α) (blade : Nat) :
    (A.map f).get? blade = (A.get? blade).map (f blade) := by
  unfold get? map
  simp only
  induction A.entries with
  | nil => rfl
  | cons entry entries ih =>
    rw [map_cons, lookup_cons, lookup_cons]
    split
    · rename_i same
      rw [beq_iff_eq] at same
      rw [same]
      rfl
    · exact ih

theorem coeff_reverse (A : Terms α) (blade : Nat) :
    A.reverse.coeff blade = A.coeff blade * (reverseSign (grade blade) : α) := by
  rw [coeff, coeff, reverse, get?_map]
  cases A.get? blade with
  | none => simp
  | some c => rcases reverseSign_cases (grade blade) with sign | sign <;> simp [signed, sign]

theorem coeff_partOf (A : Terms α) (k : ℤ) (blade : Nat) :
    (Evaluation.partOf A k).coeff blade = if (grade blade : ℤ) = k then A.coeff blade else 0 := by
  cases k with
  | ofNat k =>
    show (A.gradePart k).coeff blade = if (grade blade : ℤ) = (k : ℤ) then A.coeff blade else 0
    rw [← combination_apply, combination_gradePart, Finsupp.filter_apply, combination_apply]
    simp only [Nat.cast_inj]
  | negSucc k => exact (if_neg (by omega)).symm

end Terms

/-! ### Arithmetic that stands for a ring -/

namespace Dense

/-- The numbers of an arithmetic stand for elements of a ring: zero, signs, products and sums have their meaning. -/
structure Represents (ops : Arithmetic β) (R : β → α → Prop) : Prop where
  zero : R ops.zero 0
  sign {n : ℤ} : n = 1 ∨ n = -1 ∨ n = 0 → R (ops.ofInt n) n
  mul {x y : β} {m n : α} : R x m → R y n → R (ops.mul x y) (m * n)
  sum {xs : List β} {ms : List α} : List.Forall₂ R xs ms → R (ops.sum xs) ms.sum

def Arithmetic.ofRing (α : Type) [CommRing α] : Arithmetic α where
  zero := 0
  add := (· + ·)
  mul := (· * ·)
  ofInt n := n

theorem represents_ofRing : Represents (.ofRing α) ((· = ·) : α → α → Prop) where
  zero := rfl
  sign _ := rfl
  mul := by
    rintro x y m n rfl rfl
    rfl
  sum := by
    intro xs ms each
    rw [forall₂_eq_eq_eq] at each
    subst each
    exact sum_eq_foldl.symm

variable {R : β → α → Prop} {ops : Arithmetic β} {s : Signature} {A B : Terms α}

theorem forall₂_row {a : List β} :
    List.Forall₂ R a (A.row s) ↔ a.length = s.size ∧ ∀ i x, a[i]? = some x → R x (A.coeff i) := by
  rw [forall₂_iff_get]
  constructor
  · rintro ⟨length, each⟩
    refine ⟨length.trans (length_row A), fun i x found => ?_⟩
    obtain ⟨inside, rfl⟩ := List.getElem?_eq_some_iff.mp found
    simpa [row] using each i inside (length ▸ inside)
  · rintro ⟨length, each⟩
    refine ⟨length.trans (length_row A).symm, fun i inside _ => ?_⟩
    simpa [row] using each i _ (getElem?_eq_getElem inside)

theorem forall₂_map_row {f : Nat → β} (each : ∀ i < s.size, R (f i) (A.coeff i)) :
    List.Forall₂ R ((List.range s.size).map f) (A.row s) := by
  rw [row, forall₂_map_left_iff, forall₂_map_right_iff, forall₂_same]
  exact fun i mem => each i (mem_range.mp mem)

theorem getD_row {a : List β} (row : List.Forall₂ R a (A.row s)) {i : Nat} (small : i < s.size) (zero : β) :
    R ((a.toArray[i]?).getD zero) (A.coeff i) := by
  obtain ⟨length, each⟩ := forall₂_row.mp row
  have found : a[i]? = some (a[i]) := getElem?_eq_getElem (length ▸ small)
  rw [getElem?_toArray, found]
  exact each i _ found

namespace Represents

variable (represents : Represents ops R) {a b : List β} (left : List.Forall₂ R a (A.row s))
include represents left

theorem productRow (within : A.Within s.dimension) (right : List.Forall₂ R b (B.row s)) :
    List.Forall₂ R (productRow ops s a b) ((A.geometricProduct s B).row s) := by
  refine forall₂_map_row fun k small => ?_
  rw [coeff_geometricProduct within]
  refine represents.sum ?_
  rw [forall₂_map_left_iff, forall₂_map_right_iff, forall₂_same]
  intro i mem
  have inside : i ^^^ k < s.size := Nat.xor_lt_two_pow (mem_range.mp mem) small
  have factors := represents.mul (getD_row left (mem_range.mp mem) ops.zero) (getD_row right inside ops.zero)
  exact represents.mul factors (represents.sign (productSign_cases s i (i ^^^ k)))

theorem reverseRow : List.Forall₂ R (reverseRow ops a) (A.reverse.row s) := by
  obtain ⟨length, each⟩ := forall₂_row.mp left
  refine forall₂_row.mpr ⟨by simpa [Dense.reverseRow] using length, fun i x found => ?_⟩
  rw [Dense.reverseRow, getElem?_mapIdx, Option.map_eq_some_iff] at found
  obtain ⟨x, stored, rfl⟩ := found
  rw [coeff_reverse]
  refine represents.mul (each i x stored) (represents.sign ?_)
  rcases reverseSign_cases (grade i) with sign | sign
  · exact .inl sign
  · exact .inr (.inl sign)

theorem gradeRow (k : ℤ) : List.Forall₂ R (gradeRow ops k a) ((Evaluation.partOf A k).row s) := by
  obtain ⟨length, each⟩ := forall₂_row.mp left
  refine forall₂_row.mpr ⟨by simpa [Dense.gradeRow] using length, fun i x found => ?_⟩
  rw [Dense.gradeRow, getElem?_mapIdx, Option.map_eq_some_iff] at found
  obtain ⟨x, stored, rfl⟩ := found
  rw [coeff_partOf]
  split
  · exact each i x stored
  · exact represents.zero

end Represents

/-! ### Components -/

theorem forall₂_gatherRow {a : List β} (row : List.Forall₂ R a (A.row s)) {blades : List Nat}
    (small : ∀ blade ∈ blades, blade < s.size) : List.Forall₂ R (gatherRow blades a) (blades.map A.coeff) := by
  obtain ⟨length, each⟩ := forall₂_row.mp row
  unfold gatherRow
  induction blades with
  | nil => exact .nil
  | cons blade blades ih =>
    rw [forall_mem_cons] at small
    have found : a[blade]? = some (a[blade]) := getElem?_eq_getElem (length ▸ small.1)
    rw [map_cons, filterMap_cons]
    simp only [getElem?_toArray, found]
    exact .cons (each blade _ found) (by simpa using ih small.2)

omit [CommRing α] in
theorem lookup_reverse {entries : List (Nat × α)} (distinct : (entries.map (·.1)).Nodup) (blade : Nat) :
    entries.reverse.lookup blade = entries.lookup blade := by
  have reversed : (entries.reverse.map (·.1)).Nodup := by
    rw [map_reverse]
    exact nodup_reverse.mpr distinct
  cases found : entries.lookup blade with
  | none =>
    rw [lookup_eq_none_iff] at found ⊢
    exact fun entry mem => found entry (mem_reverse.mp mem)
  | some c =>
    exact lookup_of_mem reversed (mem_reverse.mpr (mem_of_lookup found))

theorem Represents.scatterRow (represents : Represents ops R) {entries : List (Nat × β)}
    (stored : List.Forall₂ (Terms.RelatedEntry R) entries A.entries) :
    List.Forall₂ R (scatterRow ops s entries) (A.row s) := by
  refine forall₂_map_row fun blade _ => ?_
  have reversed := rel_reverse stored
  rw [coeff, get?, ← lookup_reverse A.distinct blade]
  generalize entries.reverse = xs at reversed ⊢
  generalize A.entries.reverse = ys at reversed ⊢
  induction reversed with
  | nil => exact represents.zero
  | cons pair _ ih =>
    rw [lookup_cons, lookup_cons, pair.1]
    split
    · exact pair.2
    · exact ih

open Host in
/-- Components are put side by side with the type of the first one, and each row of them at the places of the blades. -/
theorem embed_eq {s : Signature} {grades : List ℤ} {blades : List Nat} (listed : bladesOf s grades = .ok blades)
    {v : Value} {es : List Value} (holds : v.Holds es) (long : blades.length = es.length) {first : Tensor}
    {rest : List Tensor} (filled : ∀ fill : Value → Except Fault Tensor, (∀ t, fill (.tensor t) = .ok t) →
      (∀ c x, c.number? = some x → fill c = c.fillTensor .default) → es.mapM fill = .ok (first :: rest))
    {shape : List Nat} (shared : Tensor.sharedShape (first :: rest) = .ok shape) :
    embed s v grades = .ok ⟨first.dtype, shape ++ [s.size],
      ((Tensor.columns (Tensor.count shape) ((first :: rest).map fun t =>
        ((t.cast first.dtype).broadcastTo shape).data)).map fun row =>
          scatterRow (elementArithmetic first.dtype first.dtype) s (blades.zip row)).flatten⟩ := by
  unfold embed
  rw [listed, holds.length, holds.items]
  simp only [bind, Except.bind, Except.mapError, long, bne_self_eq_false, Bool.false_eq_true, if_false]
  rw [filled _ (fun _ => rfl) fun c x read => ?_]
  · simp only [shared]
    rfl
  · cases c with
    | tensor => cases read
    | _ => rfl

end Dense

end Bladewright
