import Bladewright.Proofs.Blade.CanonicalOrder
import Bladewright.Proofs.Blade.NameForms
import Bladewright.Tree.Basic

/-!
Names of blades read back. A name is written with one digit for each factor or with numerals between underscores. Of
the two writers one chooses by the indices that count from zero and the other by those that count from one, and both
choose the digits exactly if they spell the factors (`spells_name`, `spells_productText`); the reader tells the two
notations apart by the character after the first letter.
-/
namespace Bladewright.Blade

open List

/-! ### Writing and reading -/

theorem cons_intercalate {groups : List (List Char)} (nonempty : groups ≠ []) :
    '_' :: ['_'].intercalate groups = groups.flatMap ('_' :: ·) := by
  induction groups with
  | nil => exact absurd rfl nonempty
  | cons g gs ih =>
    cases gs with
    | nil => simp
    | cons g' gs => simp [← ih (cons_ne_nil g' gs)]

section Spelling

variable {factors : List Nat}

theorem toString_number (i : Nat) : toString (Int.ofNat (i + 1)) = String.ofList (Nat.toDigits 10 (i + 1)) :=
  Nat.repr_eq_ofList_toDigits

theorem spells_compactName (nonempty : factors ≠ []) (digits : ∀ i ∈ factors, i + 1 < 10) :
    Spells (compactName (factors.map fun i => Int.ofNat (i + 1))).toList factors := by
  refine ⟨nonempty, .inl ⟨digits, ?_⟩⟩
  rw [compactName, String.toList_append, String.toList_join, map_map, flatMap_map, map_eq_flatMap]
  refine congrArg ('e' :: ·) (flatMap_congr fun i mem => ?_)
  rw [Function.comp_apply, toString_number, String.toList_ofList, Nat.toDigits_of_lt_base (digits i mem)]

theorem spells_separatedName (nonempty : factors ≠ []) :
    Spells (separatedName (factors.map fun i => Int.ofNat (i + 1))).toList factors := by
  have groups : ((factors.map fun i => Int.ofNat (i + 1)).map toString).map String.toList =
      factors.map fun i => Nat.toDigits 10 (i + 1) := by
    rw [map_map, map_map]
    refine map_congr_left fun i _ => ?_
    rw [Function.comp_apply, Function.comp_apply, toString_number, String.toList_ofList]
  refine ⟨nonempty, .inr ?_⟩
  rw [separatedName, String.toList_append, String.toList_intercalate, groups]
  exact (congrArg ('e' :: ·) (cons_intercalate (by simpa using nonempty))).trans (by rw [flatMap_map])

theorem spells_productText (nonempty : factors ≠ []) :
    Spells (productText (factors.map Int.ofNat)).toList factors := by
  have numbers : (factors.map Int.ofNat).map (· + 1) = factors.map fun i => Int.ofNat (i + 1) := by
    rw [map_map]
    rfl
  rw [productText, numbers]
  split
  · rename_i low
    rw [all_eq_true, forall_mem_map] at low
    refine spells_compactName nonempty fun i mem => ?_
    have below : (i : Int) < 9 := of_decide_eq_true (low i mem)
    omega
  · exact spells_separatedName nonempty

theorem indices_ne_nil {blade : Nat} (nonzero : blade ≠ 0) : indices blade ≠ [] :=
  ne_nil_of_mem (mem_indices.mpr (Nat.testBit_log2 nonzero))

theorem spells_name {blade : Nat} (nonzero : blade ≠ 0) : Spells (name blade).toList (indices blade) := by
  have nonempty := indices_ne_nil nonzero
  rw [name, if_neg (by simpa using nonempty)]
  split
  · rename_i low
    rw [all_eq_true, forall_mem_map] at low
    refine spells_compactName nonempty fun i mem => ?_
    have below : ((i + 1 : Nat) : Int) < 10 := of_decide_eq_true (low i mem)
    omega
  · exact spells_separatedName nonempty

/-- A text that spells factors is read, as long as each numeral in it is short enough. -/
theorem parseName_of_spells {s : String} (spells : Spells s.toList factors)
    (short : ∀ i ∈ factors, i + 1 < 10 ^ Numeral.digitLimit) : parseName s = .ok (some factors) :=
  (parseName_iff (parseName?_iff.mpr (.inl spells))).1.mpr fun i mem => isShort_iff.mpr (short i mem)

end Spelling

/-! ### Indices of a blade -/

theorem reorderingSign_of_lt {blade i : Nat} (below : blade < 2 ^ i) : reorderingSign blade (2 ^ i) = 1 := by
  rw [reorderingSign_eq_prod, support_two_pow]
  refine Finset.prod_eq_one fun j present => ?_
  have lower : j < i := by
    rw [mem_support] at present
    by_contra higher
    have small : blade < 2 ^ j := below.trans_le (Nat.pow_le_pow_right (by omega) (by omega))
    simp [Nat.testBit_lt_two_pow small] at present
  rw [Finset.prod_singleton, pairSign, if_neg (by omega)]

theorem xor_two_pow_of_lt {blade i : Nat} (below : blade < 2 ^ i) : blade ^^^ 2 ^ i = blade ||| 2 ^ i := by
  refine Nat.eq_of_testBit_eq fun j => ?_
  rw [Nat.testBit_xor, Nat.testBit_or, Nat.testBit_two_pow]
  by_cases same : i = j
  · simp [← same, Nat.testBit_lt_two_pow below]
  · simp [same]

theorem checkedProduct_of_lt (s : Signature) {blade i : Nat} (below : blade < 2 ^ i) :
    checkedProduct s blade (2 ^ i) = .ok (blade ||| 2 ^ i, 1) := by
  have absent : blade.testBit i = false := Nat.testBit_lt_two_pow below
  have sign : productSign s blade (2 ^ i) = 1 := by
    simp [productSign, reorderingSign_of_lt below, and_two_pow, absent]
  rw [checkedProduct_two_pow, absent, sign, xor_two_pow_of_lt below, if_neg (by simp)]

section Ascending

variable {whole i blade : Nat} {is : List Nat}

/-- What is left of a blade when its lowest basis vectors have been taken: those of a list that ascends above them. -/
structure Remaining (whole blade : Nat) (is : List Nat) : Prop where
  above : ∀ i ∈ is, blade < 2 ^ i
  ascending : is.Pairwise (· < ·)
  parts : ∀ j, whole.testBit j = (blade.testBit j || decide (j ∈ is))

theorem Remaining.start (blade : Nat) : Remaining blade 0 (indices blade) where
  above i _ := Nat.two_pow_pos i
  ascending := ascending_indices blade
  parts j := by simp [mem_indices]

theorem Remaining.done (left : Remaining whole blade []) : blade = whole :=
  Nat.eq_of_testBit_eq fun j => by simp [left.parts j]

theorem Remaining.step (left : Remaining whole blade (i :: is)) : Remaining whole (blade ||| 2 ^ i) is where
  above j mem := by
    have higher : i < j := (pairwise_cons.mp left.ascending).1 j mem
    exact Nat.or_lt_two_pow (left.above j (by simp [mem])) (Nat.pow_lt_pow_right (by omega) higher)
  ascending := (pairwise_cons.mp left.ascending).2
  parts j := by
    rw [left.parts, Nat.testBit_or, Nat.testBit_two_pow, Bool.or_assoc]
    simp [eq_comm]

theorem contractIndices_of_remaining (s : Signature) (sign : Int) (left : Remaining whole blade is) :
    contractIndices s blade sign (is.map Int.ofNat) = .ok (whole, sign) := by
  induction is generalizing blade with
  | nil => rw [left.done]; rfl
  | cons i is ih =>
    show (checkedProduct s blade (2 ^ i) >>= _) = _
    rw [checkedProduct_of_lt s (left.above i mem_cons_self)]
    show contractIndices s (blade ||| 2 ^ i) (sign * 1) (is.map Int.ofNat) = _
    rw [mul_one]
    exact ih left.step

theorem sortIndices_of_remaining (sign : Int) (left : Remaining whole blade is) :
    sortIndices blade sign (is.map Int.ofNat) = .ok (whole, sign) := by
  induction is generalizing blade with
  | nil => rw [left.done]; rfl
  | cons i is ih =>
    have below := left.above i mem_cons_self
    show (if blade.testBit i then _ else sortIndices (blade ||| 2 ^ i) (sign * reorderingSign blade (2 ^ i)) _) = _
    rw [Nat.testBit_lt_two_pow below, reorderingSign_of_lt below, mul_one]
    exact ih left.step

end Ascending

theorem canonicalize_indices (s : Option Signature) (blade : Nat) :
    canonicalize s ((indices blade).map Int.ofNat) = .ok (blade, 1) := by
  cases s with
  | none => exact sortIndices_of_remaining 1 (Remaining.start blade)
  | some s => exact contractIndices_of_remaining s 1 (Remaining.start blade)

/-! ### Names of blades and of products of basis vectors -/

theorem isWritable_blade (factors : List Nat) :
    (Tree.blade (factors.map Int.ofNat)).isWritable = true ↔ ∀ i ∈ factors, i + 1 < 10 ^ Numeral.digitLimit := by
  rw [Tree.isWritable, all_eq_true, forall_mem_map]
  refine forall₂_congr fun i _ => ?_
  have size : (Int.ofNat i + 1).natAbs = i + 1 := rfl
  rw [Numeral.isWritable, decide_eq_true_iff, size, Nat.pow_eq]

/-- Names read back. The name of a blade other than the scalar one gives the indices of the blade, as long as none of
them has more digits than a numeral may have, and the indices sort or contract to the blade itself, with sign one. The
text of a product of basis vectors, in any order and with repetitions, can be written under the same condition on its
indices, and then it gives its factors. -/
theorem parseName_text :
    (∀ blade : Nat, blade ≠ 0 →
      ((∀ i ∈ indices blade, i + 1 < 10 ^ Numeral.digitLimit) → parseName (name blade) = .ok (some (indices blade))) ∧
      ∀ s : Option Signature, canonicalize s ((indices blade).map Int.ofNat) = .ok (blade, 1)) ∧
    ∀ factors : List Nat, factors ≠ [] →
      ((Tree.blade (factors.map Int.ofNat)).isWritable = true ↔ ∀ i ∈ factors, i + 1 < 10 ^ Numeral.digitLimit) ∧
      ((Tree.blade (factors.map Int.ofNat)).isWritable = true →
        parseName (Tree.blade (factors.map Int.ofNat)).text = .ok (some factors)) := by
  refine ⟨fun blade nonzero => ⟨?_, fun s => canonicalize_indices s blade⟩, fun factors nonempty =>
    ⟨isWritable_blade factors, fun written => ?_⟩⟩
  · exact parseName_of_spells (spells_name nonzero)
  · exact parseName_of_spells (spells_productText nonempty) ((isWritable_blade factors).mp written)

theorem parseName_text_twelve :
    parseName (name 2056) = .ok (some [3, 11]) ∧
    canonicalize none [3, 11] = .ok (2056, 1) ∧
    parseName (Tree.blade [11, 3, 11]).text = .ok (some [11, 3, 11]) := by
  have listed : indices 2056 = [3, 11] := by decide +kernel
  have named := parseName_text.1 2056 (by decide)
  rw [listed] at named
  have product := parseName_text.2 [11, 3, 11] (by decide)
  exact ⟨named.1 (by decide +kernel), named.2 none, product.2 (by decide +kernel)⟩

/-- The first index that is too long: its number in the name has a digit more than a numeral may have. -/
theorem isWritable_long_index : (Tree.blade [10 ^ Numeral.digitLimit - 1]).isWritable = false := by
  decide +kernel

end Bladewright.Blade
