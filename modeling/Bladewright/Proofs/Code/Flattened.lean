import Bladewright.Code.Generate
import Bladewright.Proofs.Algebra.Related
import Bladewright.Proofs.Blade.Enumeration
import Bladewright.Proofs.Coeff.Emit

/-!
Flattened code: the components of a multivector are those of its grades, ascending, and of all blades of a grade in
their order (`Terms.Flattens`).
-/
namespace Bladewright

open List Outcome

namespace Terms

variable {α β : Type}

/-- The components of terms in `n` dimensions: the grades that are present, ascending, each with the coefficients
of all its blades in their order. Without any term it is a single zero. -/
def Flattens [OfNat α 0] (n : Nat) (A : Terms α) (components : List α) : Prop :=
  ∃ grades : List Nat, grades.Pairwise (· < ·) ∧ (∀ k, k ∈ grades ↔ k ∈ A.blades.map Blade.grade) ∧
    components = if grades = [] then [0] else grades.flatMap fun k => (Blade.ofGrade n k).map A.coeff

theorem Flattens.related [OfNat α 0] [OfNat β 0] {R : α → β → Prop} (zero : R 0 0) {n : Nat} {A : Terms α}
    {B : Terms β} (related : Related R A B) {xs : List α} (flattens : A.Flattens n xs) :
    ∃ ys, B.Flattens n ys ∧ List.Forall₂ R xs ys := by
  obtain ⟨grades, ascending, present, rfl⟩ := flattens
  refine ⟨_, ⟨grades, ascending, related.blades_eq ▸ present, rfl⟩, ?_⟩
  split
  · exact .cons zero .nil
  · refine rel_flatMap (forall₂_same.mpr fun k _ => rfl) ?_
    rintro k _ rfl
    refine rel_map ?_ (forall₂_same.mpr fun blade _ => rfl)
    rintro blade _ rfl
    exact related.coeff zero blade

theorem coeff_filter [OfNat α 0] (A : Terms α) {p : Nat → Bool} {blade : Nat} (selected : p blade = true) :
    (A.filter p).coeff blade = A.coeff blade := by
  unfold coeff get? filter
  simp only
  induction A.entries with
  | nil => rfl
  | cons entry entries ih =>
    rw [filter_cons]
    split
    · rw [lookup_cons, lookup_cons]
      split
      · rfl
      · exact ih
    · rename_i dropped
      have other : (blade == entry.1) = false := by
        rw [beq_eq_false_iff_ne]
        rintro rfl
        exact dropped selected
      rw [ih, lookup_cons, other]

end Terms

theorem nodup_eraseDups {α : Type} [BEq α] [LawfulBEq α] : ∀ xs : List α, xs.eraseDups.Nodup
  | [] => by simp
  | x :: xs => by
    rw [eraseDups_cons, nodup_cons]
    refine ⟨by simp, nodup_eraseDups _⟩
termination_by xs => xs.length
decreasing_by exact Nat.lt_succ_of_le (length_filter_le _ _)

theorem ascending_mergeSort {α : Type} [BEq α] [LawfulBEq α] [LinearOrder α] (xs : List α) :
    (xs.eraseDups.mergeSort (· ≤ ·)).Pairwise (· < ·) := by
  have sorted : (xs.eraseDups.mergeSort (· ≤ ·)).Pairwise fun a b => decide (a ≤ b) = true :=
    pairwise_mergeSort (by simpa using fun _ _ _ => le_trans) (by simpa using le_total) _
  have distinct : (xs.eraseDups.mergeSort (· ≤ ·)).Nodup :=
    (mergeSort_perm _ _).nodup_iff.mpr (nodup_eraseDups _)
  exact (sorted.and distinct).imp fun both => lt_of_le_of_ne (by simpa using both.1) both.2

namespace Multivector

theorem components_gradePart (A : Multivector) (k : Nat) :
    (A.gradePart k).components k = (Blade.ofGrade A.signature.dimension k).map A.terms.coeff := by
  refine map_congr_left fun blade mem => ?_
  exact A.terms.coeff_filter (by simpa using Blade.grade_of_mem_ofGrade mem)

theorem grades_ascending (A : Multivector) : A.grades.Pairwise (· < ·) := ascending_mergeSort _

theorem mem_grades {A : Multivector} {k : Nat} : k ∈ A.grades ↔ k ∈ A.terms.blades.map Blade.grade := by
  rw [grades, mem_mergeSort, mem_eraseDups]

end Multivector

namespace Layout

variable {A : Multivector} {l : Layout}

theorem ofPart_gradePart {k : Nat} {part : Int × List Coeff} (laid : ofPart ((k : Int), A.gradePart k) = .ok part) :
    part.2 = (Blade.ofGrade A.signature.dimension k).map A.terms.coeff := by
  have natural : ¬ (k : Int) < 0 := by omega
  simp only [ofPart, Multivector.checkedComponents, natural, if_false] at laid
  split at laid
  · rename_i found
    split at found
    · cases found
      cases laid
      exact A.components_gradePart k
    · cases found
  · cases laid

theorem mapM_ofPart {grades : List Nat} {parts : List (Int × List Coeff)}
    (laid : (grades.map fun k : Nat => ((k : Int), A.gradePart k)).mapM ofPart = .ok parts) :
    parts.flatMap (·.2) =
      grades.flatMap fun k => (Blade.ofGrade A.signature.dimension k).map A.terms.coeff := by
  have each := of_mapM laid
  clear laid
  induction grades generalizing parts with
  | nil =>
    cases each
    rfl
  | cons k grades ih =>
    obtain _ | ⟨first, rest⟩ := each
    rw [flatMap_cons, flatMap_cons, ofPart_gradePart first, ih rest]

theorem mapM_of_parts {parts : List (Int × Multivector)} (laid : ofResult (.parts parts) = .ok l) :
    parts.mapM ofPart = .ok l.grades := by
  cases parts with
  | nil => cases laid
  | cons first rest =>
    obtain ⟨grades, listed, ⟨⟩⟩ := of_bind laid
    exact listed

theorem flattens_ofResult (laid : ofResult (.ofMultivector A) = .ok l) :
    A.terms.Flattens A.signature.dimension l.components := by
  refine ⟨A.grades, A.grades_ascending, fun k => Multivector.mem_grades, ?_⟩
  have parts : A.partition = A.grades.map fun k => (k, A.gradePart k) := rfl
  generalize A.grades = grades at parts
  match grades with
  | [] =>
    simp only [Result.ofMultivector, parts, map_nil] at laid
    cases laid
    simp [components, ofMultivector, parts]
  | [k] =>
    simp only [Result.ofMultivector, parts, map_cons, map_nil] at laid
    cases laid
    simp [components, ofMultivector, parts, A.components_gradePart k]
  | k :: k' :: grades =>
    simp only [Result.ofMultivector, parts, map_cons, map_map] at laid
    have listed : ((k :: k' :: grades).map fun k : Nat => ((k : Int), A.gradePart k)).mapM ofPart = .ok l.grades :=
      mapM_of_parts laid
    rw [if_neg (by simp)]
    exact mapM_ofPart listed

end Layout

namespace Code

open Host Coeff

theorem generate_flattened {result : Result} {code : Expr}
    (generated : generate result ⟨"flattened", none⟩ = .ok code) :
    ∃ l elements, Layout.ofResult result = .ok l ∧ emitAll l.components = .ok elements ∧ code = .tuple elements := by
  obtain ⟨l, laid, built⟩ := of_bind generated
  change (emitAll l.components >>= fun elements => pure (.tuple elements)) = .ok code at built
  obtain ⟨elements, emitted, ⟨⟩⟩ := of_bind built
  exact ⟨l, elements, of_mapError laid, emitted, rfl⟩

theorem evalTuple_emitAll {inputs : Inputs} {components : List Coeff} {xs : List ℚ}
    (means : List.Forall₂ (Means inputs.reading) components xs) {elements : List Expr}
    (emitted : emitAll components = .ok elements) : inputs.valuation.evalTuple (.tuple elements) = some xs := by
  have each := of_mapM emitted
  clear emitted
  show elements.mapM inputs.valuation.eval = some xs
  induction means generalizing elements with
  | nil =>
    cases each
    rfl
  | cons first _ ih =>
    obtain _ | ⟨found, rest⟩ := each
    rw [mapM_cons, eval_emit first.defined (of_mapError found), ih rest, first.value_eq]
    rfl

end Code

end Bladewright
