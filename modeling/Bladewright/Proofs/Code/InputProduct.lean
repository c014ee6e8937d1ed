import Bladewright.Proofs.Algebra.Combination
import Bladewright.Proofs.Blade.Involution
import Bladewright.Proofs.Coeff.MonomialCode
import Bladewright.Proofs.Code.Inputs

/-!
The product of two inputs whose coefficients are all read from components. The coefficient of a blade is made of one
signed product for every pair of places that comes to the blade, and no two pairs give the same product.
-/
namespace Bladewright

open List Terms Blade

namespace Terms

variable {α ι κ : Type} (s : Signature) (select : Selection)

/-! ### Pairs of entries -/

/-- Terms that have, for every blade of a list, the coefficient of the place beside it. -/
def Assigns (A : List (Nat × ι)) (f : ι → α) (X : Terms α) : Prop := X.entries = A.map fun x => (x.1, f x.2)

def Contributes (blade a b : Nat) : Prop := select a b = true ∧ productSign s a b ≠ 0 ∧ a ^^^ b = blade

instance (blade a b : Nat) : Decidable (Contributes s select blade a b) :=
  inferInstanceAs (Decidable (_ ∧ _))

def pairs (A : List (Nat × ι)) (B : List (Nat × κ)) (blade : Nat) : List ((Nat × ι) × (Nat × κ)) :=
  (A ×ˢ B).filter fun p => Contributes s select blade p.1.1 p.2.1

def pairProduct [Mul α] [Neg α] (f : ι → α) (g : κ → α) (p : (Nat × ι) × (Nat × κ)) : α :=
  signedMul (productSign s p.1.1 p.2.1) (f p.1.2) (g p.2.2)

variable {s select}

theorem filterMap_contribution? [Mul α] [Neg α] (f : ι → α) (g : κ → α) (e : Nat × ι) (B : List (Nat × κ))
    (blade : Nat) :
    (B.map fun x => (x.1, g x.2)).filterMap (contribution? s select blade (e.1, f e.2)) =
      ((B.map fun x => (e, x)).filter fun p => Contributes s select blade p.1.1 p.2.1).map (pairProduct s f g) := by
  induction B with
  | nil => rfl
  | cons x B ih =>
    rw [map_cons, filterMap_cons, map_cons, filter_cons, ih]
    by_cases taken : Contributes s select blade e.1 x.1
    · have found : contribution? s select blade (e.1, f e.2) (x.1, g x.2) = some (pairProduct s f g (e, x)) :=
        if_pos taken
      rw [found, if_pos (by simpa using taken)]
      rfl
    · have missing : contribution? s select blade (e.1, f e.2) (x.1, g x.2) = none := if_neg taken
      rw [missing, if_neg (by simpa using taken)]

theorem contributions_map [Mul α] [Neg α] (f : ι → α) (g : κ → α) (A : List (Nat × ι)) (B : List (Nat × κ))
    (blade : Nat) :
    contributions s select (A.map fun x => (x.1, f x.2)) (B.map fun x => (x.1, g x.2)) blade =
      (pairs s select A B blade).map (pairProduct s f g) := by
  induction A with
  | nil => rfl
  | cons e A ih =>
    rw [contributions] at ih ⊢
    rw [map_cons, flatMap_cons, ih, filterMap_contribution?, pairs, pairs, product_cons,
      filter_append, map_append]

theorem nodup_pairs {A : List (Nat × ι)} {B : List (Nat × κ)} (left : A.Nodup) (right : B.Nodup) (blade : Nat) :
    (pairs s select A B blade).Nodup :=
  (left.product right).filter _

/-- No entry of the first list has two partners in the second. -/
theorem length_pairs_le {A : List (Nat × ι)} {B : List (Nat × κ)} (left : A.Nodup) (right : (B.map (·.1)).Nodup)
    (blade : Nat) : (pairs s select A B blade).length ≤ A.length := by
  have listed {p : (Nat × ι) × (Nat × κ)} (mem : p ∈ pairs s select A B blade) :
      p.1 ∈ A ∧ p.2 ∈ B ∧ p.2.1 = p.1.1 ^^^ blade := by
    obtain ⟨inside, contributes⟩ := mem_filter.mp mem
    refine ⟨(mem_product.mp inside).1, (mem_product.mp inside).2, ?_⟩
    rw [← (of_decide_eq_true contributes).2.2, xor_xor_self]
  have nodup : ((pairs s select A B blade).map (·.1)).Nodup :=
    (nodup_pairs left right.of_map blade).map_on fun p mem p' mem' same =>
      Prod.ext same (inj_on_of_nodup_map right (listed mem).2.1 (listed mem').2.1
        ((listed mem).2.2.trans (same ▸ (listed mem').2.2.symm)))
  rw [← length_map (·.1)]
  refine (nodup.subperm fun x mem => ?_).length_le
  obtain ⟨p, paired, rfl⟩ := mem_map.mp mem
  exact (listed paired).1

theorem coeff_multiply_pairs [CommRing α] {f : ι → α} {g : κ → α} {A : List (Nat × ι)} {B : List (Nat × κ)}
    {X Y : Terms α} (left : Assigns A f X) (right : Assigns B g Y) (blade : Nat) :
    (multiply s select X Y).coeff blade = ((pairs s select A B blade).map (pairProduct s f g)).sum := by
  have total : ∀ (cs : List α) (c : α), (addUp (some c) cs).getD 0 = c + cs.sum := by
    intro cs
    induction cs with
    | nil => intro c; simp [addUp]
    | cons d cs ih =>
      intro c
      rw [sum_cons, ← add_assoc]
      exact ih (c + d)
  rw [coeff, get?_multiply, left, right, contributions_map]
  cases (pairs s select A B blade).map (pairProduct s f g) with
  | nil => rfl
  | cons c cs => exact total cs c

end Terms

namespace Coeff

open Evaluation Host

/-! ### Reads of two inputs -/

def componentAt (source : String) (i : Nat) : Coeff := componentRead source (some i)

theorem isRead_componentAt (source : String) (i : Nat) : IsRead (componentAt source i) := ⟨source, i, rfl⟩

theorem componentAt_inj {source source' : String} {i j : Nat} (same : componentAt source i = componentAt source' j) :
    source = source' ∧ i = j := by
  simpa [componentAt, componentRead, ofInt, Scalar.ofInt] using same

variable {s : Signature} {select : Terms.Selection} {left right : String} (differ : left ≠ right)

section

include differ

theorem isSigned_pairProduct {blade : Nat} {A B : List (Nat × Nat)} {p : (Nat × Nat) × (Nat × Nat)}
    (mem : p ∈ pairs s select A B blade) :
    IsSigned (productSign s p.1.1 p.2.1) (componentAt left p.1.2) (componentAt right p.2.2)
      (pairProduct s (componentAt left) (componentAt right) p) := by
  have contributes : Terms.Contributes s select blade p.1.1 p.2.1 := by
    simpa using (mem_filter.mp mem).2
  have unit : productSign s p.1.1 p.2.1 = 1 ∨ productSign s p.1.1 p.2.1 = -1 := by
    rcases productSign_cases s p.1.1 p.2.1 with one | minus | zero
    · exact .inl one
    · exact .inr minus
    · exact absurd zero contributes.2.1
  exact isSigned_signedMul unit (isRead_componentAt _ _) (isRead_componentAt _ _) fun same =>
    differ (componentAt_inj same).1

theorem IsSigned.places_eq {sign sign' : ℤ} {i i' j j' : Nat} {e e' : Coeff}
    (signed : IsSigned sign (componentAt left i) (componentAt right j) e)
    (signed' : IsSigned sign' (componentAt left i') (componentAt right j') e')
    (same : e.splitNumber.2 = e'.splitNumber.2) : i = i' ∧ j = j' := by
  obtain ⟨fs, perm, rfl⟩ := signed.monomial
  obtain ⟨gs, perm', rfl⟩ := signed'.monomial
  rw [splitNumber_several perm.length_eq.ge, splitNumber_several perm'.length_eq.ge] at same
  obtain rfl : fs = gs := (Coeff.prod.inj same).2
  have first : componentAt left i ∈ fs := perm.mem_iff.mpr (by simp)
  have second : componentAt right j ∈ fs := perm.mem_iff.mpr (by simp)
  rw [perm'.mem_iff] at first second
  simp only [mem_cons, not_mem_nil, or_false] at first second
  constructor
  · rcases first with same | same
    · exact (componentAt_inj same).2
    · exact absurd (componentAt_inj same).1 differ
  · rcases second with same | same
    · exact absurd (componentAt_inj same).1.symm differ
    · exact (componentAt_inj same).2

end

/-! ### The coefficients of the product -/

section

variable {A B : List (Nat × Nat)} {X Y : Terms Coeff} (distinct : (A.map (·.2)).Nodup)
  (distinct' : (B.map (·.2)).Nodup) (first : Terms.Assigns A (componentAt left) X) (second : Terms.Assigns B (componentAt right) Y) {blade : Nat}
  (present : blade ∈ (Terms.multiply s select X Y).blades)
include differ distinct distinct' first second present

theorem isTotal_multiply :
    IsTotal ((Terms.pairs s select A B blade).map (Terms.pairProduct s (componentAt left) (componentAt right)))
      ((Terms.multiply s select X Y).coeff blade) := by
  obtain ⟨e, found⟩ := Option.isSome_iff_exists.mp (Terms.isSome_get?.mpr present)
  have sum := Terms.get?_multiply s select X Y blade
  rw [found, first, second, Terms.contributions_map (componentAt left) (componentAt right)] at sum
  rw [Terms.coeff, found, Option.getD_some]
  -- two pairs with the same rest read the same places, which number the blades
  refine isTotal_addUp ?_ ?_ sum.symm
  · intro m mem
    obtain ⟨p, listed, rfl⟩ := mem_map.mp mem
    exact (isSigned_pairProduct differ listed).proper
  · rw [map_map]
    refine (nodup_pairs distinct.of_map distinct'.of_map blade).map_on fun p listed p' listed' same => ?_
    obtain ⟨i, j⟩ := (isSigned_pairProduct differ listed).places_eq differ (isSigned_pairProduct differ listed') same
    have inside := mem_product.mp (mem_filter.mp listed).1
    have inside' := mem_product.mp (mem_filter.mp listed').1
    exact Prod.ext (inj_on_of_nodup_map distinct inside.1 inside'.1 i)
      (inj_on_of_nodup_map distinct' inside.2 inside'.2 j)

theorem computes_multiply {α : Type} [CommRing α] {V : Nat → Expr → α → Prop} (interprets : Interprets V)
    {X' Y' : Terms α} {a b : Nat → α} (numbers : Terms.Assigns A a X') (numbers' : Terms.Assigns B b Y')
    {read : Coeff → α}
    (reads : ∀ x ∈ A, ReadsAs V read (componentAt left x.2) ∧ read (componentAt left x.2) = a x.2)
    (reads' : ∀ x ∈ B, ReadsAs V read (componentAt right x.2) ∧ read (componentAt right x.2) = b x.2) :
    Computes (V (3 + (Terms.pairs s select A B blade).length)) ((Terms.multiply s select X Y).coeff blade).emit
      ((Terms.multiply s select X' Y').coeff blade) := by
  have total := isTotal_multiply differ distinct distinct' first second present
  have value : ((Terms.pairs s select A B blade).map (Terms.pairProduct s a b)).sum =
      (((Terms.pairs s select A B blade).map (Terms.pairProduct s (componentAt left) (componentAt right))).map
        (valueOf read)).sum := by
    rw [map_map]
    refine congrArg List.sum (map_congr_left fun p listed => ?_)
    have signed := isSigned_pairProduct differ listed
    have inside := mem_product.mp (mem_filter.mp listed).1
    rw [Function.comp_apply, signed.valueOf, (reads _ inside.1).2, (reads' _ inside.2).2]
    rcases signed.unit with sign | sign <;> simp [pairProduct, signedMul, sign]
  rw [coeff_multiply_pairs numbers numbers', value, ← length_map (pairProduct s (componentAt left) _)]
  refine total.computes interprets fun m mem => ?_
  obtain ⟨p, listed, rfl⟩ := mem_map.mp mem
  have inside := mem_product.mp (mem_filter.mp listed).1
  exact ⟨_, _, _, isSigned_pairProduct differ listed, (reads _ inside.1).1, (reads' _ inside.2).1⟩

end

end Coeff

/-! ### Inputs of all grades -/

/-- All blades of `n` dimensions in the order of components: by grade, then in the order of the grade. -/
def everyBlade (n : Nat) : List Nat := (List.range (n + 1)).flatMap (ofGrade n)

theorem mem_everyBlade {n blade : Nat} : blade ∈ everyBlade n ↔ blade < 2 ^ n := by
  simp only [everyBlade, mem_flatMap, mem_range, mem_ofGrade]
  constructor
  · rintro ⟨k, -, small, -⟩
    exact small
  · intro small
    exact ⟨grade blade, Nat.lt_succ_of_le (grade_le small), small, rfl⟩

theorem nodup_everyBlade (n : Nat) : (everyBlade n).Nodup := nodup_flatMap_ofGrade n nodup_range

theorem length_everyBlade (n : Nat) : (everyBlade n).length = 2 ^ n := by
  have perm : (everyBlade n).Perm (List.range (2 ^ n)) := by
    rw [perm_ext_iff_of_nodup (nodup_everyBlade n) nodup_range]
    exact fun blade => mem_everyBlade.trans mem_range.symm
  rw [perm.length_eq, length_range]

def numberedBlades (n : Nat) : List (Nat × Nat) := (everyBlade n).zip (List.range (2 ^ n))

theorem map_fst_numberedBlades (n : Nat) : (numberedBlades n).map (·.1) = everyBlade n :=
  map_fst_zip (by simp [length_everyBlade])

theorem nodup_places (n : Nat) : ((numberedBlades n).map (·.2)).Nodup := by
  rw [numberedBlades, map_snd_zip (by simp [length_everyBlade])]
  exact nodup_range

theorem zip_map_range {α : Type} (n : Nat) (f : Nat → α) :
    (everyBlade n).zip ((List.range (2 ^ n)).map f) = (numberedBlades n).map fun x => (x.1, f x.2) := by
  rw [zip_map_right]
  rfl

theorem assigns_numbers {α : Type} [OfNat α 0] {n : Nat} {a : List α} (complete : a.length = 2 ^ n) {X : Terms α}
    (entries : X.entries = (everyBlade n).zip a) : Terms.Assigns (numberedBlades n) (fun i => a.getD i 0) X := by
  have listed : a = (List.range (2 ^ n)).map fun i => a.getD i 0 := by
    refine ext_getElem (by simp [complete]) fun i inside _ => ?_
    simp [List.getD, inside]
  rw [Terms.Assigns, entries]
  exact (congrArg (everyBlade n).zip listed).trans (zip_map_range n fun i => a.getD i 0)

namespace Evaluation

variable {n : Nat}

theorem bladesOf_all (n : Nat) : bladesOf n ((List.range (n + 1)).map Int.ofNat) = everyBlade n := by
  rw [bladesOf_eq, map_map]
  exact congrArg (·.flatMap (ofGrade n)) (map_id _)

theorem exist_all : ∀ g ∈ (List.range (n + 1)).map Int.ofNat, 0 ≤ g ∧ g ≤ n := by
  intro g mem
  obtain ⟨k, listed, rfl⟩ := mem_map.mp mem
  have bound := mem_range.mp listed
  simp
  omega

theorem ascending_all : ((List.range (n + 1)).map Int.ofNat).Pairwise (· < ·) := by
  rw [pairwise_map]
  exact pairwise_lt_range.imp Int.ofNat_lt.mpr

theorem assigns_inputTerms (positive : 1 ≤ n) (source : String) :
    Terms.Assigns (numberedBlades n) (Coeff.componentAt source)
      (inputTerms symbolic n source ((List.range (n + 1)).map Int.ofNat)) := by
  have several : 2 ^ n ≠ 1 := (Nat.one_lt_two_pow (Nat.ne_of_gt positive)).ne'
  rw [Terms.Assigns, entries_inputTerms ascending_all exist_all, bladesOf_all, length_everyBlade, components,
    if_neg several, ← zip_map_range]
  rfl

end Evaluation

/-! ### The layout of the product -/

section

open Coeff Evaluation Host

variable {s : Signature} (positive : 1 ≤ s.dimension) (left right : String)

def inputProduct (s : Signature) (left right : String) : Multivector :=
  ⟨s, (inputTerms symbolic s.dimension left ((List.range (s.dimension + 1)).map Int.ofNat)).geometricProduct s
    (inputTerms symbolic s.dimension right ((List.range (s.dimension + 1)).map Int.ofNat))⟩

theorem mem_blades_inputProduct {blade : Nat} (small : blade < 2 ^ s.dimension) :
    blade ∈ (inputProduct s left right).terms.blades := by
  have all (source : String) {blade : Nat} (small : blade < 2 ^ s.dimension) :
      blade ∈ (inputTerms symbolic s.dimension source ((List.range (s.dimension + 1)).map Int.ofNat)).blades := by
    rw [blades_inputTerms ascending_all exist_all, bladesOf_all]
    exact mem_everyBlade.mpr small
  refine (mem_blades_multiply s .all).mpr ⟨blade, all left small, 0, all right (Nat.two_pow_pos _), rfl, ?_, ?_⟩
  · rw [productSign_zero_right]
    exact one_ne_zero
  · exact Nat.xor_zero blade

theorem within_inputProduct : (inputProduct s left right).terms.Within s.dimension :=
  (within_inputTerms symbolic _ left _).multiply s .all (within_inputTerms symbolic _ right _)

theorem grades_inputProduct : (inputProduct s left right).grades = List.range (s.dimension + 1) := by
  have sorted := Multivector.grades_ascending (inputProduct s left right)
  refine List.Perm.eq_of_pairwise (fun _ _ _ _ less more => absurd less (Nat.lt_asymm more)) sorted
    pairwise_lt_range ?_
  rw [perm_ext_iff_of_nodup (sorted.imp Nat.ne_of_lt) nodup_range]
  intro k
  rw [Multivector.mem_grades, mem_map, mem_range]
  constructor
  · rintro ⟨blade, mem, rfl⟩
    exact Nat.lt_succ_of_le (grade_le (within_inputProduct left right blade mem))
  · intro reachable
    have nonempty : ofGrade s.dimension k ≠ [] := by
      rw [← length_pos_iff, length_ofGrade]
      exact Nat.choose_pos (Nat.le_of_lt_succ reachable)
    obtain ⟨blade, mem⟩ := exists_mem_of_ne_nil _ nonempty
    obtain ⟨small, graded⟩ := mem_ofGrade.mp mem
    exact ⟨blade, mem_blades_inputProduct left right small, graded⟩

theorem components_inputProduct :
    (Layout.ofMultivector (inputProduct s left right)).components =
      (everyBlade s.dimension).map (inputProduct s left right).terms.coeff := by
  rw [Layout.components, Layout.grades_ofMultivector _ (by simp [grades_inputProduct]), grades_inputProduct,
    flatMap_map, everyBlade, map_flatMap]
  rfl

/-- Every blade has a partner that completes it to the product of all basis vectors. -/
theorem size_le_pairs (s : Signature) :
    s.size ≤ (pairs s .all (numberedBlades s.dimension) (numberedBlades s.dimension) (2 ^ s.dimension - 1)).length := by
  have listed := map_fst_numberedBlades s.dimension
  have nodup : (numberedBlades s.dimension).Nodup := (nodup_places _).of_map
  have partner : numberedBlades s.dimension ⊆ (pairs s .all (numberedBlades s.dimension)
      (numberedBlades s.dimension) (2 ^ s.dimension - 1)).map (·.1) := by
    intro x mem
    have small : x.1 < 2 ^ s.dimension := mem_everyBlade.mp (listed ▸ mem_map_of_mem mem)
    have complement : (2 ^ s.dimension - 1) ^^^ x.1 ∈ (numberedBlades s.dimension).map (·.1) := by
      rw [listed, mem_everyBlade]
      exact Nat.xor_lt_two_pow (Nat.sub_lt (Nat.two_pow_pos _) Nat.one_pos) small
    obtain ⟨y, mem', same⟩ := mem_map.mp complement
    refine mem_map.mpr ⟨(x, y), mem_filter.mpr ⟨mem_product.mpr ⟨mem, mem'⟩, decide_eq_true ⟨rfl, ?_, ?_⟩⟩, rfl⟩
    · rw [same, productSign, and_complement small, metricFactor_zero, mul_one]
      exact reorderingSign_ne_zero _ _
    · rw [same, Nat.xor_comm (2 ^ s.dimension - 1), xor_xor_self]
  have count := (nodup.subperm partner).length_le
  rwa [length_map, ← length_map (·.1), listed, length_everyBlade] at count

variable {left right} {α : Type} [CommRing α] {V : Nat → Expr → α → Prop}

/-- The code of the last component of the product is nested as deep as there are components. -/
theorem size_le_nesting (positive : 1 ≤ s.dimension) (differ : left ≠ right) {c : Expr}
    (emitted : ((inputProduct s left right).terms.coeff (2 ^ s.dimension - 1)).emit = .ok c) : s.size ≤ c.nesting + 1 := by
  have top : 2 ^ s.dimension - 1 < 2 ^ s.dimension := Nat.sub_lt (Nat.two_pow_pos _) Nat.one_pos
  have total := isTotal_multiply differ (nodup_places _) (nodup_places _) (assigns_inputTerms positive left)
    (assigns_inputTerms positive right) (mem_blades_inputProduct left right top)
  have long := total.length_le_nesting emitted
  rw [length_map] at long
  exact (size_le_pairs s).trans long

include positive in
theorem computes_inputProduct (interprets : Interprets V) (differ : left ≠ right) {X Y : Terms α} {a b : List α}
    (complete : a.length = s.size) (complete' : b.length = s.size)
    (numbers : X.entries = (everyBlade s.dimension).zip a) (numbers' : Y.entries = (everyBlade s.dimension).zip b) {read : Coeff → α}
    (reads : ∀ i < s.size, ReadsAs V read (componentAt left i) ∧ read (componentAt left i) = a.getD i 0)
    (reads' : ∀ i < s.size, ReadsAs V read (componentAt right i) ∧ read (componentAt right i) = b.getD i 0) :
    ∀ blade ∈ everyBlade s.dimension, Computes (V (3 + s.size))
      ((inputProduct s left right).terms.coeff blade).emit ((X.geometricProduct s Y).coeff blade) := by
  intro blade mem
  have inside : ∀ x ∈ numberedBlades s.dimension, x.2 < s.size := fun x listed =>
    mem_range.mp (of_mem_zip listed).2
  have computes := computes_multiply differ (nodup_places _) (nodup_places _) (assigns_inputTerms positive left)
    (assigns_inputTerms positive right) (mem_blades_inputProduct left right (mem_everyBlade.mp mem)) interprets
    (assigns_numbers complete numbers) (assigns_numbers complete' numbers')
    (fun x listed => reads _ (inside x listed)) fun x listed => reads' _ (inside x listed)
  have few : (Terms.pairs s .all (numberedBlades s.dimension) (numberedBlades s.dimension) blade).length ≤ _ :=
    Terms.length_pairs_le (nodup_places _).of_map (map_fst_numberedBlades s.dimension ▸ nodup_everyBlade _) blade
  rw [numberedBlades, length_zip, length_everyBlade, length_range, Nat.min_self] at few
  exact computes.deeper interprets (Nat.add_le_add_left few 3)

end

end Bladewright
