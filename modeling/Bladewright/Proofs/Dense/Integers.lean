import Bladewright.Proofs.Dense.Rows
import Bladewright.Proofs.Tensor.Broadcast
import Bladewright.Proofs.Tensor.Sum
import Mathlib.Data.Int.ModEq

/-!
Tensors of integers of 64 bits. Their elements stand for integers up to multiples of `2 ^ 64`, and arithmetic that
wraps around stands for arithmetic with integers, in whatever order sums are taken.
-/
namespace Bladewright

open List hiding count

open Host

namespace Element

theorem wrap_eq (n : ℤ) : wrap n = (n + 9223372036854775808) % 18446744073709551616 - 9223372036854775808 := rfl

theorem wrap_modEq (n : ℤ) : wrap n ≡ n [ZMOD 18446744073709551616] := by
  rw [wrap_eq, Int.modEq_iff_dvd]
  omega

theorem wrap_congr {m n : ℤ} (same : m ≡ n [ZMOD 18446744073709551616]) : wrap m = wrap n := by
  rw [Int.modEq_iff_dvd] at same
  rw [wrap_eq, wrap_eq]
  omega

def ofInteger (n : ℤ) : Element := .whole (wrap n)

theorem add_ofInteger (m n : ℤ) : Tensor.Arith.add.element .int64 (ofInteger m) (ofInteger n) = ofInteger (m + n) :=
  congrArg whole (wrap_congr ((wrap_modEq m).add (wrap_modEq n)))

theorem sub_ofInteger (m n : ℤ) : Tensor.Arith.sub.element .int64 (ofInteger m) (ofInteger n) = ofInteger (m - n) :=
  congrArg whole (wrap_congr ((wrap_modEq m).sub (wrap_modEq n)))

theorem mul_ofInteger (m n : ℤ) : Tensor.Arith.mul.element .int64 (ofInteger m) (ofInteger n) = ofInteger (m * n) :=
  congrArg whole (wrap_congr ((wrap_modEq m).mul (wrap_modEq n)))

theorem neg_ofInteger (n : ℤ) : whole (wrap (-wrap n)) = ofInteger (-n) :=
  congrArg whole (wrap_congr (wrap_modEq n).neg)

def StandsFor (e : Element) (n : ℤ) : Prop := e = ofInteger n

theorem forall₂_standsFor {xs : List Element} {ns : List ℤ} :
    List.Forall₂ StandsFor xs ns ↔ xs = ns.map ofInteger := by
  rw [← forall₂_eq_eq_eq, forall₂_map_right_iff]
  exact Iff.rfl

theorem standsFor_map (ns : List ℤ) : List.Forall₂ StandsFor (ns.map ofInteger) ns := forall₂_standsFor.mpr rfl

end Element

namespace Dense

open Element

theorem sums_int64 : Tensor.Sums StandsFor (Tensor.Arith.add.element .int64) (.zero .int64) where
  zero := rfl
  add := by
    rintro x y m n rfl rfl
    exact add_ofInteger m n

theorem represents_elementArithmetic : Represents (elementArithmetic .int64 .int64) StandsFor where
  zero := rfl
  sign := by
    rintro n (rfl | rfl | rfl) <;> rfl
  mul := by
    rintro x y m n rfl rfl
    exact mul_ofInteger m n
  sum each := by
    have total := sums_int64.foldl each sums_int64.zero
    rwa [zero_add] at total

theorem represents_sumArithmetic : Represents (sumArithmetic .int64 .int64) StandsFor :=
  { represents_elementArithmetic with
    sum := fun each => sums_int64.columnSum _ each }

end Dense

/-! ### Tensors with one axis and without axes -/

namespace Tensor

def integer (n : ℤ) : Tensor := ⟨.int64, [], [.ofInteger n]⟩

def integers (ns : List ℤ) : Tensor := ⟨.int64, [ns.length], ns.map .ofInteger⟩

theorem rows_single {d : Dtype} {k : Nat} {xs : List Element} (full : xs.length = k) : rows ⟨d, [k], xs⟩ = [xs] := by
  show [xs.take k] = [xs]
  rw [← full, take_length]

theorem sharedShape_integers (ns : List ℤ) : sharedShape (ns.map integer) = .ok [] := by
  induction ns with
  | nil => rfl
  | cons n ns ih => exact ih

theorem columns_integers (ns : List ℤ) :
    columns 1 ((ns.map integer).map fun t => ((t.cast .int64).broadcastTo []).data) = [ns.map .ofInteger] := by
  rw [columns, columns, map_map, filterMap_map]
  exact congrArg (fun f => [f ns]) (filterMap_eq_map' (f := Element.ofInteger))

end Tensor

namespace Dense

open Element Tensor

variable {s : Signature} {A B : Terms ℤ}

theorem integers_row : integers (A.row s) = ⟨.int64, [s.size], (A.row s).map ofInteger⟩ := by
  rw [integers, Terms.length_row]

theorem length_elements : ((A.row s).map ofInteger).length = s.size := by
  rw [length_map, Terms.length_row]

theorem count_elements : ((A.row s).map ofInteger).length = count [s.size] :=
  length_elements.trans (one_mul _).symm

theorem rowsOf_integers (operand : String) :
    rowsOf s operand (.tensor (integers (A.row s))) = pure (integers (A.row s)) := by
  rw [integers_row]
  exact if_pos rfl

theorem stretched_integers : stretched s (.tensor (integers (A.row s))) = pure (integers (A.row s)) := by
  rw [integers_row]
  simp only [stretched, tensorOf, pure_bind, commonShape?_self, broadcastTo_self count_elements]

theorem mapRows_integers {extent : Option Nat} {f : List Element → List Element} :
    (integers (A.row s)).mapRows extent f = ⟨.int64, extent.toList, f ((A.row s).map ofInteger)⟩ := by
  rw [integers_row, mapRows, rows_single length_elements]
  simp

theorem geometricProduct_integers (within : A.Within s.dimension) :
    geometricProduct s (.tensor (integers (A.row s))) (.tensor (integers (B.row s))) =
      .ok (integers ((A.geometricProduct s B).row s)) := by
  have product : productRow (sumArithmetic .int64 .int64) s ((A.row s).map ofInteger) ((B.row s).map ofInteger) =
      ((A.geometricProduct s B).row s).map ofInteger :=
    forall₂_standsFor.mp (represents_sumArithmetic.productRow (standsFor_map _) within (standsFor_map _))
  have promoted : Dtype.int64.promote .int64 = .int64 := rfl
  unfold geometricProduct
  rw [rowsOf_integers, rowsOf_integers, integers_row, integers_row]
  simp only [pure_bind, promoted, commonShape?_self, Tensor.cast, if_true, broadcastTo_self count_elements,
    rows_single length_elements, zipWith_cons_cons, zipWith_nil_left, flatten_singleton, product]
  rw [integers_row]
  rfl

theorem reverse_integers : reverse s (.tensor (integers (A.row s))) = .ok (integers (A.reverse.row s)) := by
  have reversed : reverseRow (elementArithmetic .int64 .int64) ((A.row s).map ofInteger) =
      (A.reverse.row s).map ofInteger :=
    forall₂_standsFor.mp (represents_elementArithmetic.reverseRow (standsFor_map _))
  rw [reverse, stretched_integers, pure_bind, mapRows_integers]
  show Except.ok (Tensor.mk .int64 [s.size] (reverseRow (elementArithmetic .int64 .int64) _)) = _
  rw [reversed, integers_row]

theorem gradePart_integers (k : ℤ) :
    gradePart s k (.tensor (integers (A.row s))) = .ok (integers ((Evaluation.partOf A k).row s)) := by
  have part : gradeRow (elementArithmetic .int64 .int64) k ((A.row s).map ofInteger) =
      ((Evaluation.partOf A k).row s).map ofInteger :=
    forall₂_standsFor.mp (represents_elementArithmetic.gradeRow (standsFor_map _) k)
  rw [gradePart, stretched_integers, pure_bind, mapRows_integers]
  show Except.ok (Tensor.mk .int64 [s.size] (gradeRow (elementArithmetic .int64 .int64) k _)) = _
  rw [part, integers_row]

/-! ### Components as tensors -/

section

variable {grades : List ℤ} {blades : List Nat} (listed : bladesOf s grades = .ok blades)
include listed

theorem extract_integers (small : ∀ blade ∈ blades, blade < s.size) :
    extract s (.tensor (integers (A.row s))) grades = .ok (blades.map fun blade => integer (A.coeff blade)) := by
  rw [extract, rowsOf_integers, pure_bind, listed]
  refine congrArg Except.ok (map_congr_left fun blade mem => ?_)
  have gathered := forall₂_standsFor.mp (forall₂_gatherRow (standsFor_map (A.row s))
    (forall_mem_singleton.mpr (small blade mem)))
  rw [mapRows_integers, gathered]
  rfl

theorem embed_integers {ns : List ℤ} (entries : A.entries = blades.zip ns) (complete : ns.length = blades.length)
    (nonempty : ns ≠ []) {v : Value} (holds : v.Holds (ns.map fun n => .tensor (integer n))) :
    embed s v grades = .ok (integers (A.row s)) := by
  have stored : List.Forall₂ (Terms.RelatedEntry StandsFor) (blades.zip (ns.map ofInteger)) A.entries := by
    rw [entries, zip_map_right, forall₂_map_left_iff, forall₂_same]
    exact fun entry _ => ⟨rfl, rfl⟩
  have scattered : scatterRow (elementArithmetic .int64 .int64) s (blades.zip (ns.map ofInteger)) =
      (A.row s).map ofInteger :=
    forall₂_standsFor.mp (represents_elementArithmetic.scatterRow stored)
  obtain ⟨n, rest, rfl⟩ := exists_cons_of_ne_nil nonempty
  have column : columns (count []) ((integer n :: rest.map integer).map fun t =>
      ((t.cast (integer n).dtype).broadcastTo []).data) = [(n :: rest).map ofInteger] := columns_integers (n :: rest)
  have embedded := embed_eq listed holds (by rw [length_map, complete]) (fun fill tensors _ => by
    rw [mapM_map]
    exact Outcome.mapM_ok fun n _ => tensors (integer n)) (sharedShape_integers (n :: rest))
  rw [column, map_singleton, flatten_singleton] at embedded
  rw [embedded, integers_row, ← scattered]
  rfl

end

end Dense

end Bladewright
