import Bladewright.Proofs.Algebra.Coefficients
import Bladewright.Proofs.Algebra.Within
import Bladewright.Proofs.Code.Flattened

/-!
The layout of a result.
-/
namespace Bladewright

open List Multivector Blade

theorem lookup_map_mk {α : Type} (f : Nat → α) (blades : List Nat) (blade : Nat) :
    (blades.map fun b => (b, f b)).lookup blade = if blade ∈ blades then some (f blade) else none := by
  induction blades with
  | nil => rfl
  | cons b blades ih =>
    rw [map_cons, lookup_cons, ih]
    by_cases same : blade = b
    · simp [same]
    · have other : (blade == b) = false := by simpa using same
      simp [other, same]

namespace Layout

/-- The components of a layout with their blades: the `j`-th of a grade with the `j`-th blade of the grade. -/
def entries (l : Layout) : List (Nat × Coeff) :=
  l.grades.flatMap fun part => (ofGrade l.dimension part.1.toNat).zip part.2

/-- The coefficient that a layout gives a blade: zero if none of its components belongs to the blade. -/
def coeff (l : Layout) (blade : Nat) : Coeff := (l.entries.lookup blade).getD 0

/-- A layout of terms in `n` dimensions that neither loses nor repeats a coefficient. -/
structure Holds (l : Layout) (n : Nat) (A : Terms Coeff) : Prop where
  dimension : l.dimension = n
  present : l.grades ≠ []
  ascending : (l.grades.map (·.1)).Pairwise (· < ·)
  exist : ∀ part ∈ l.grades, 0 ≤ part.1 ∧ part.1 ≤ n
  complete : ∀ part ∈ l.grades, part.2.length = n.choose part.1.toNat
  distinct : (l.entries.map (·.1)).Nodup
  rebuilt : ∀ blade, l.coeff blade = A.coeff blade

variable {A : Multivector}

theorem grades_ofMultivector (A : Multivector) (nonempty : A.grades ≠ []) :
    (ofMultivector A).grades =
      A.grades.map fun k : Nat => ((k : Int), (ofGrade A.signature.dimension k).map A.terms.coeff) := by
  have parts : A.partition = A.grades.map fun k => (k, A.gradePart k) := rfl
  unfold ofMultivector
  rw [parts]
  generalize A.grades = grades at nonempty
  cases grades with
  | nil => exact absurd rfl nonempty
  | cons k grades =>
    change ((k :: grades).map fun k => (k, A.gradePart k)).map
      (fun part => ((part.1 : Int), part.2.components part.1)) = _
    rw [map_map]
    refine map_congr_left fun k _ => ?_
    exact congrArg (((k : Int)), ·) (A.components_gradePart k)

theorem ofMultivector_of_empty (empty : A.grades = []) : ofMultivector A = ⟨A.signature.dimension, [(0, [0])]⟩ := by
  have parts : A.partition = A.grades.map fun k => (k, A.gradePart k) := rfl
  unfold ofMultivector
  rw [parts, empty]
  rfl

theorem blades_of_empty (empty : A.grades = []) : A.terms.blades = [] := by
  refine eq_nil_iff_forall_not_mem.mpr fun blade mem => ?_
  have listed : grade blade ∈ A.grades := mem_grades.mpr (mem_map_of_mem mem)
  rw [empty] at listed
  cases listed

theorem grade_le_dimension (within : A.terms.Within A.signature.dimension) {k : Nat} (listed : k ∈ A.grades) :
    k ≤ A.signature.dimension := by
  obtain ⟨blade, mem, rfl⟩ := mem_map.mp (mem_grades.mp listed)
  exact grade_le (within blade mem)

theorem ofPart_of_listed (within : A.terms.Within A.signature.dimension) {part : Nat × Multivector}
    (mem : part ∈ A.partition) :
    ofPart ((part.1 : Int), part.2) = .ok ((part.1 : Int), part.2.components part.1) := by
  obtain ⟨k, listed, rfl⟩ := mem_map.mp mem
  have bound := grade_le_dimension within listed
  have natural : ¬ (k : Int) < 0 := by omega
  have inside : (decide (0 ≤ (k : Int)) && decide ((k : Int) < (A.signature.dimension : Int) + 1)) = true := by
    simp only [Bool.and_eq_true, decide_eq_true_eq]
    omega
  simp only [ofPart, checkedComponents, gradePart, natural, if_false, inside, if_true]
  rfl

theorem ofResult_parts {first : Int × Multivector} {rest : List (Int × Multivector)} {grades : List (Int × List Coeff)}
    (laid : (first :: rest).mapM ofPart = .ok grades) :
    ofResult (.parts (first :: rest)) = .ok ⟨first.2.signature.dimension, grades⟩ := by
  rw [ofResult, laid]
  rfl

theorem ofResult_ofMultivector (within : A.terms.Within A.signature.dimension) :
    ofResult (.ofMultivector A) = .ok (ofMultivector A) := by
  have each := fun (part : Nat × Multivector) (mem : part ∈ A.partition) => ofPart_of_listed within mem
  match shape : A.partition with
  | [] =>
    simp only [Result.ofMultivector, shape]
    rfl
  | [part] =>
    simp only [Result.ofMultivector, shape]
    rfl
  | part :: part' :: rest =>
    have signature : part.2.signature = A.signature := by
      obtain ⟨k, -, rfl⟩ := mem_map.mp (shape ▸ mem_cons_self : part ∈ A.partition)
      rfl
    rw [shape] at each
    have laid : ((part :: part' :: rest).map fun part => ((part.1 : Int), part.2)).mapM ofPart =
        .ok ((part :: part' :: rest).map fun part => ((part.1 : Int), part.2.components part.1)) := by
      rw [mapM_map]
      exact Outcome.mapM_ok each
    have whole : ofMultivector A = ⟨part.2.signature.dimension,
        (part :: part' :: rest).map fun part => ((part.1 : Int), part.2.components part.1)⟩ := by
      rw [signature]
      simp only [ofMultivector, shape]
    rw [whole]
    simp only [Result.ofMultivector, shape]
    exact ofResult_parts laid

theorem entries_ofMultivector (A : Multivector) (nonempty : A.grades ≠ []) :
    (ofMultivector A).entries =
      (A.grades.flatMap (ofGrade A.signature.dimension)).map fun blade => (blade, A.terms.coeff blade) := by
  unfold entries
  rw [grades_ofMultivector A nonempty, flatMap_map, map_flatMap]
  refine flatMap_congr fun k _ => ?_
  exact (congrArg (List.zip · _) (map_id _).symm).trans zip_map'

theorem coeff_ofMultivector (within : A.terms.Within A.signature.dimension) (nonempty : A.grades ≠ []) (blade : Nat) :
    (ofMultivector A).coeff blade = A.terms.coeff blade := by
  rw [coeff, entries_ofMultivector A nonempty, lookup_map_mk]
  split
  · rfl
  · rename_i unlisted
    refine (Terms.coeff_eq_zero fun mem => unlisted ?_).symm
    exact mem_flatMap.mpr ⟨grade blade, mem_grades.mpr (mem_map_of_mem mem),
      mem_ofGrade.mpr ⟨within blade mem, rfl⟩⟩

theorem holds_of_empty (empty : A.grades = []) : (ofMultivector A).Holds A.signature.dimension A.terms := by
  have entries : (⟨A.signature.dimension, [(0, [0])]⟩ : Layout).entries = [(0, 0)] := by
    simp [entries, ofGrade_zero]
  rw [ofMultivector_of_empty empty]
  refine ⟨rfl, by simp, by simp, by simp, by simp, by simp [entries], fun blade => ?_⟩
  have absent : blade ∉ A.terms.blades := by simp [blades_of_empty empty]
  rw [coeff, entries, Terms.coeff_eq_zero absent, lookup_cons]
  split <;> rfl

theorem holds_ofMultivector (within : A.terms.Within A.signature.dimension) :
    (ofMultivector A).Holds A.signature.dimension A.terms := by
  by_cases none : A.grades = []
  · exact holds_of_empty none
  have listed := grades_ofMultivector A none
  refine ⟨rfl, ?_, ?_, ?_, ?_, ?_, coeff_ofMultivector within none⟩
  · rw [listed]
    simpa using none
  · rw [listed, map_map, pairwise_map]
    exact A.grades_ascending.imp Int.ofNat_lt.mpr
  · rw [listed, forall_mem_map]
    exact fun k mem => ⟨Int.natCast_nonneg k, Int.ofNat_le.mpr (grade_le_dimension within mem)⟩
  · rw [listed, forall_mem_map]
    exact fun k _ => (length_map _).trans (length_ofGrade _ k)
  · rw [entries_ofMultivector A none, map_map]
    exact (map_id _).symm ▸ nodup_flatMap_ofGrade _ (A.grades_ascending.imp Nat.ne_of_lt)

end Layout

end Bladewright
