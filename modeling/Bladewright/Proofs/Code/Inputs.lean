import Bladewright.Proofs.Code.Nested

/-!
Typed host inputs. Their components are numbered through the grades of the type and the blades of each grade, and the
layout runs through the grades and blades of the terms: the two agree (`layout_inputTerms`).
-/
namespace Bladewright

open List Blade Coeff

theorem accumulate_of_new {α : Type} (f : α → α → α) {blade : Nat} (c : α) {entries : List (Nat × α)}
    (absent : blade ∉ entries.map (·.1)) : accumulate f blade c entries = entries ++ [(blade, c)] := by
  induction entries with
  | nil => rfl
  | cons entry entries ih =>
    rw [map_cons, mem_cons, not_or] at absent
    rw [accumulate, if_neg fun same => absent.1 same.symm, ih absent.2, cons_append]

theorem lookup_of_mem {α : Type} {entries : List (Nat × α)} (distinct : (entries.map (·.1)).Nodup)
    {entry : Nat × α} (mem : entry ∈ entries) : entries.lookup entry.1 = some entry.2 := by
  obtain ⟨before, after, rfl⟩ := append_of_mem mem
  rw [map_append, map_cons, nodup_append] at distinct
  refine lookup_eq_some_iff.mpr ⟨before, after, rfl, fun earlier listed => ?_⟩
  rw [bne_iff_ne]
  exact fun same => distinct.2.2 _ (mem_map_of_mem listed) _ mem_cons_self same.symm

namespace Terms

variable {α : Type}

variable {entries : List (Nat × α)}

theorem entries_foldl_addAt {A : Terms α} (distinct : (A.blades ++ entries.map (·.1)).Nodup) :
    (entries.foldl (fun A e => A.addAt (fun _ new => new) e.1 e.2) A).entries = A.entries ++ entries := by
  induction entries generalizing A with
  | nil => simp
  | cons entry entries ih =>
    have new : entry.1 ∉ A.blades := by
      rw [map_cons, nodup_append] at distinct
      exact fun mem => distinct.2.2 _ mem _ mem_cons_self rfl
    have added : (A.addAt (fun _ new => new) entry.1 entry.2).entries = A.entries ++ [entry] :=
      accumulate_of_new _ entry.2 new
    rw [foldl_cons, ih, added, append_assoc, singleton_append]
    rwa [blades, added, map_append, append_assoc]

theorem entries_ofList (distinct : (entries.map (·.1)).Nodup) :
    (ofList entries).entries = entries := entries_foldl_addAt distinct

theorem map_coeff_blades [OfNat α 0] (A : Terms α) : A.blades.map A.coeff = A.coefficients := by
  rw [blades, coefficients, map_map]
  refine map_congr_left fun entry mem => ?_
  show (A.entries.lookup entry.1).getD 0 = entry.2
  rw [lookup_of_mem A.distinct mem]
  rfl

end Terms

theorem GradeSpec.resolve_ascending (spec : GradeSpec) (n : Nat) : (spec.resolve n).Pairwise (· < ·) := by
  unfold resolve
  split
  · rw [pairwise_map]
    exact pairwise_lt_range.imp Int.ofNat_lt.mpr
  · exact ascending_mergeSort _

namespace Evaluation

variable {n : Nat} {grades : List Int}

theorem bladesOf_eq (n : Nat) (grades : List Int) :
    bladesOf n grades = (grades.map Int.toNat).flatMap (ofGrade n) := by
  rw [bladesOf, flatMap_map]

theorem length_bladesOf (n : Nat) (grades : List Int) :
    (bladesOf n grades).length = (grades.map fun g => n.choose g.toNat).sum := by
  simp [bladesOf, length_flatMap, length_ofGrade]

variable {α : Type}

theorem length_components (engine : Engine α) (source : String) (count : Nat) :
    (components engine source count).length = count := by
  unfold components
  split
  · rename_i only
    exact only.symm
  · simp

section

variable {n : Nat} {grades : List Int} (ascending : grades.Pairwise (· < ·)) (exist : ∀ g ∈ grades, 0 ≤ g ∧ g ≤ n)
include ascending exist

theorem ascending_toNat : (grades.map Int.toNat).Pairwise (· < ·) := by
  rw [pairwise_map]
  refine ascending.imp_of_mem fun first second less => ?_
  have natural := (exist _ first).1
  omega

theorem nodup_bladesOf : (bladesOf n grades).Nodup := by
  rw [bladesOf_eq]
  exact nodup_flatMap_ofGrade n ((ascending_toNat ascending exist).imp Nat.ne_of_lt)

theorem entries_inputTerms (engine : Engine α) (source : String) : (inputTerms engine n source grades).entries =
      (bladesOf n grades).zip (components engine source (bladesOf n grades).length) := by
  refine Terms.entries_ofList ?_
  rw [map_fst_zip (length_components engine source _).ge]
  exact nodup_bladesOf ascending exist

theorem blades_inputTerms (engine : Engine α) (source : String) :
    (inputTerms engine n source grades).blades = bladesOf n grades := by
  rw [Terms.blades, entries_inputTerms ascending exist, map_fst_zip (length_components engine source _).ge]

theorem coefficients_inputTerms (engine : Engine α) (source : String) :
    (inputTerms engine n source grades).coefficients = components engine source (bladesOf n grades).length := by
  rw [Terms.coefficients, entries_inputTerms ascending exist, map_snd_zip (length_components engine source _).le]

end

theorem grades_inputTerms {s : Signature} (ascending : grades.Pairwise (· < ·))
    (exist : ∀ g ∈ grades, 0 ≤ g ∧ g ≤ s.dimension) (engine : Engine Coeff) (source : String) :
    (Multivector.mk s (inputTerms engine s.dimension source grades)).grades = grades.map Int.toNat := by
  have sorted := Multivector.grades_ascending ⟨s, inputTerms engine s.dimension source grades⟩
  have sorted' := ascending_toNat ascending exist
  refine List.Perm.eq_of_pairwise (fun _ _ _ _ less more => absurd less (Nat.lt_asymm more)) sorted sorted' ?_
  rw [perm_ext_iff_of_nodup (sorted.imp Nat.ne_of_lt) (sorted'.imp Nat.ne_of_lt)]
  intro k
  rw [Multivector.mem_grades, blades_inputTerms ascending exist, bladesOf_eq]
  simp only [mem_map, mem_flatMap]
  constructor
  · rintro ⟨blade, ⟨k', listed, mem⟩, rfl⟩
    rwa [grade_of_mem_ofGrade mem]
  · rintro ⟨g, listed, rfl⟩
    have reachable : g.toNat ≤ s.dimension := by
      have bounds := exist g listed
      omega
    have nonempty : ofGrade s.dimension g.toNat ≠ [] := by
      rw [← length_pos_iff, length_ofGrade]
      exact Nat.choose_pos reachable
    obtain ⟨blade, mem⟩ := exists_mem_of_ne_nil _ nonempty
    exact ⟨blade, ⟨g.toNat, ⟨g, listed, rfl⟩, mem⟩, grade_of_mem_ofGrade mem⟩

end Evaluation

namespace Layout

open Evaluation

variable {s : Signature} {grades : List Int} (ascending : grades.Pairwise (· < ·))
  (exist : ∀ g ∈ grades, 0 ≤ g ∧ g ≤ s.dimension) (nonempty : grades ≠ []) (engine : Engine Coeff) (source : String)
include ascending exist nonempty

theorem grades_layout_inputTerms :
    (ofMultivector ⟨s, inputTerms engine s.dimension source grades⟩).grades = grades.map fun g =>
      (g, (ofGrade s.dimension g.toNat).map (inputTerms engine s.dimension source grades).coeff) := by
  have listed := grades_inputTerms ascending exist engine source
  rw [grades_ofMultivector _ (by simpa [listed] using nonempty), listed, map_map]
  refine map_congr_left fun g mem => ?_
  have natural : ((g.toNat : Nat) : Int) = g := Int.toNat_of_nonneg (exist g mem).1
  simp only [Function.comp_apply, natural]

theorem components_layout_inputTerms : (ofMultivector ⟨s, inputTerms engine s.dimension source grades⟩).components =
      Evaluation.components engine source (bladesOf s.dimension grades).length := by
  rw [components, grades_layout_inputTerms ascending exist nonempty, flatMap_map,
    ← coefficients_inputTerms ascending exist engine source, ← Terms.map_coeff_blades,
    blades_inputTerms ascending exist, bladesOf, map_flatMap]

end Layout

namespace Code

open Host Evaluation

/-- The reads of all components of an object: of the only one without an index, of several with their places. -/
def componentReads (e : Expr) (count : Nat) : List Expr :=
  if count = 1 then [.apply "getcomponent" [e]]
  else (List.range count).map fun i : Nat => .apply "getcomponent" [e, .int i]

section

variable {source : String} {e : Expr} (read : Expr.read source = .ok e)
include read

theorem emitDeep_input (depth : Nat) : emitDeep (depth + 1) (.sym source) = .ok e := by
  rw [emitDeep, read]

theorem emitDeep_componentRead (depth i : Nat) :
    emitDeep (depth + 2) (componentRead source (some i)) = .ok (.apply "getcomponent" [e, .int i]) := by
  show emitDeep (depth + 1 + 1) (.app "getcomponent" [.sym source, .ofInt i]) = _
  rw [emitDeep, if_pos rfl, mapM_cons, emitDeep_input read, mapM_cons, emitDeep_ofInt]
  rfl

theorem emit_componentRead : (componentRead source none).emit = .ok (.apply "getcomponent" [e]) ∧
      ∀ i : Nat, (componentRead source (some i)).emit = .ok (.apply "getcomponent" [e, .int i]) := by
  refine ⟨?_, fun i => emitDeep_componentRead read _ i⟩
  show emitDeep (_ + 1 + 1) (.app "getcomponent" [.sym source]) = _
  rw [emitDeep, if_pos rfl, mapM_cons, emitDeep_input read]
  rfl

end

theorem emitAll_components {source : String} {e : Expr} (read : Expr.read source = .ok e) (count : Nat) :
    emitAll (components symbolic source count) = .ok (componentReads e count) := by
  obtain ⟨only, several⟩ := emit_componentRead read
  unfold components componentReads
  split
  · show ([componentRead source none].mapM fun c => c.emit.mapError Error.coefficient) = _
    rw [mapM_cons, only]
    rfl
  · show (((List.range count).map fun i => componentRead source (some i)).mapM
      fun c => c.emit.mapError Error.coefficient) = _
    rw [mapM_map]
    exact Outcome.mapM_ok fun i _ => congrArg (Except.mapError Error.coefficient) (several i)

theorem evaluate_componentReads {env : Environment} (contractual : env.KeepsContract) {e : Expr}
    {grade dimension : Int} {values : List Value} (input : env.evaluate e = .ok (.kvector grade dimension values)) :
    List.Forall₂ (fun e v => env.evaluate e = .ok v) (componentReads e values.length) values := by
  unfold componentReads
  split
  · rename_i only
    obtain ⟨v, rfl⟩ := length_eq_one_iff.mp only
    exact .cons (Environment.evaluate_getComponent_only contractual input) .nil
  · rw [forall₂_iff_get]
    refine ⟨by simp, fun i _ inside => ?_⟩
    have placed := Environment.evaluate_getComponent contractual input (List.getElem?_eq_getElem inside)
    simpa using placed

section

variable {s : Signature} {source : String} {spec : GradeSpec}
  (exist : ∀ g ∈ spec.resolve s.dimension, 0 ≤ g ∧ g ≤ s.dimension)
include exist

theorem evaluate_input : evaluateMultivector s (.typed (.host source) spec) =
    .ok ⟨s, inputTerms symbolic s.dimension source (spec.resolve s.dimension)⟩ := by
  have inside : (spec.resolve s.dimension).filter (fun g => !(0 ≤ g && g ≤ (s.dimension : Int))) = [] := by
    simpa [filter_eq_nil_iff] using exist
  have checked : checkedGrades (α := Coeff) s spec = .ok (spec.resolve s.dimension) := by
    rw [checkedGrades, inside]
    rfl
  rw [evaluateMultivector, Evaluation.evaluate, checked]
  rfl

variable {e : Expr} (read : Expr.read source = .ok e) (nonempty : spec.resolve s.dimension ≠ [])
include read nonempty

theorem generate_flattened_input :
    generate (.ofMultivector ⟨s, inputTerms symbolic s.dimension source (spec.resolve s.dimension)⟩)
        ⟨"flattened", none⟩ =
      .ok (.tuple (componentReads e ((spec.resolve s.dimension).map fun g => s.dimension.choose g.toNat).sum)) := by
  have listed := Layout.components_layout_inputTerms (spec.resolve_ascending s.dimension) exist nonempty symbolic source
  rw [length_bladesOf] at listed
  rw [generate_flattened_components (Layout.ofResult_ofMultivector (within_inputTerms symbolic _ source _)), listed,
    emitAll_components read]
  rfl

theorem generate_nested_input {g : Int} (single : spec.resolve s.dimension = [g]) :
    generate (.ofMultivector ⟨s, inputTerms symbolic s.dimension source (spec.resolve s.dimension)⟩)
        ⟨"nested", none⟩ =
      .ok (construct (kvectorType g s.dimension) (componentReads e (s.dimension.choose g.toNat))) := by
  have ascending := spec.resolve_ascending s.dimension
  have laid := Layout.ofResult_ofMultivector
    (A := ⟨s, inputTerms symbolic s.dimension source (spec.resolve s.dimension)⟩) (within_inputTerms symbolic _ source _)
  have grades := Layout.grades_layout_inputTerms ascending exist nonempty symbolic source
  have listed := Layout.components_layout_inputTerms ascending exist nonempty symbolic source
  rw [Layout.components, grades, length_bladesOf] at listed
  rw [generate_nested laid, emitGrades, grades]
  simp only [single, map_cons, map_nil, flatMap_singleton, sum_singleton] at listed ⊢
  rw [mapM_cons, listed, emitAll_components read]
  rfl

end

/-- A typed host input is read component by component in the order in which its layout lists them. Where the type
has one grade, the nested code of the input builds the element of this grade again that the input is. -/
theorem input_reads_back {s : Signature} {source : String} {e : Expr} (read : Expr.read source = .ok e)
    {spec : GradeSpec} (nonempty : spec.resolve s.dimension ≠ [])
    (exist : ∀ g ∈ spec.resolve s.dimension, 0 ≤ g ∧ g ≤ s.dimension) :
    ∃ A, evaluateMultivector s (.typed (.host source) spec) = .ok A ∧
      generate (.ofMultivector A) ⟨"flattened", none⟩ =
        .ok (.tuple (componentReads e ((spec.resolve s.dimension).map fun g => s.dimension.choose g.toNat).sum)) ∧
      ∀ g, spec.resolve s.dimension = [g] → ∃ code, generate (.ofMultivector A) ⟨"nested", none⟩ = .ok code ∧
        ∀ env : Environment, env.KeepsContract → ∀ values, values.length = s.dimension.choose g.toNat →
          env.evaluate e = .ok (.kvector g s.dimension values) →
            env.evaluate code = .ok (.kvector g s.dimension values) := by
  refine ⟨_, evaluate_input exist, generate_flattened_input exist read nonempty, fun g single => ?_⟩
  refine ⟨_, generate_nested_input exist read nonempty single, fun env contractual values complete input => ?_⟩
  have grade := exist g (single ▸ mem_singleton_self g)
  exact Environment.evaluate_construct contractual grade complete
    (complete ▸ evaluate_componentReads contractual input)

def vectorInput : Environment := .extending [("x", .kvector 1 3 [.int 4, .int 5, .int 6])]

theorem input_vector_reads_back :
    ∃ A code, evaluateMultivector ⟨3, 0, 0⟩ (.typed (.host "x") (.named 1 "Vector")) = .ok A ∧
      generate (.ofMultivector A) ⟨"flattened", none⟩ = .ok (.tuple [.apply "getcomponent" [.name "x", .int 0],
        .apply "getcomponent" [.name "x", .int 1], .apply "getcomponent" [.name "x", .int 2]]) ∧
      generate (.ofMultivector A) ⟨"nested", none⟩ = .ok code ∧
      vectorInput.evaluate code = .ok (.kvector 1 3 [.int 4, .int 5, .int 6]) := by
  have resolved : (GradeSpec.named 1 "Vector").resolve (Signature.dimension ⟨3, 0, 0⟩) = [1] := by decide +kernel
  have contractual : vectorInput.KeepsContract := Environment.keepsContract_extending (by decide +kernel)
  obtain ⟨A, evaluated, flattened, nested⟩ := @input_reads_back ⟨3, 0, 0⟩ "x" (.name "x") rfl (.named 1 "Vector")
    (resolved ▸ cons_ne_nil 1 []) (resolved ▸ forall_mem_singleton.mpr (by decide))
  obtain ⟨code, generated, rebuilds⟩ := nested 1 resolved
  refine ⟨A, code, evaluated, ?_, generated, rebuilds vectorInput contractual _ rfl rfl⟩
  rw [flattened, resolved]
  rfl

end Code

end Bladewright
