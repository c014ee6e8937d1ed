import Bladewright.Proofs.Code.Hoisting
import Bladewright.Proofs.Code.Outputs

/-!
Layouts with locals in place of host inputs.
-/
namespace Bladewright.Code

open List Host Coeff

/-- The locals of a generated function with their expressions: one for each host input that is no plain name. -/
structure IsHoisted (l : Layout) (hoists : List (String × Expr)) : Prop where
  locals : hoists.map (·.1) = (List.range (hoistedSources l.components).length).map localName
  sources : List.Forall₂ (fun source hoist => Expr.read source = .ok hoist.2) (hoistedSources l.components) hoists

namespace IsHoisted

variable {l : Layout} {hoists : List (String × Expr)} (hoisting : IsHoisted l hoists)
include hoisting

theorem numbered : ∀ t ∈ hoists.map (·.1), ∃ k, t = localName k := by
  intro t mem
  rw [hoisting.locals] at mem
  obtain ⟨k, -, rfl⟩ := mem_map.mp mem
  exact ⟨k, rfl⟩

theorem distinct : (hoists.map (·.1)).Nodup := by
  rw [hoisting.locals]
  exact nodup_range.map localName_injective

theorem forall_expressions {P : Expr → Prop}
    (each : ∀ source ∈ hoistedSources l.components, ∀ e, Expr.read source = .ok e → P e) :
    ∀ hoist ∈ hoists, P hoist.2 := by
  have sources := hoisting.sources
  generalize hoistedSources l.components = listed at sources each
  clear hoisting
  induction sources with
  | nil => simp
  | cons first _ ih =>
    rw [forall_mem_cons] at each ⊢
    exact ⟨each.1 _ first, ih each.2⟩

theorem of_lookup_eq_some {source t : String} (found : (hoisted l.components).lookup source = some t) :
    ∃ hoist ∈ hoists, t = hoist.1 ∧ Expr.read source = .ok hoist.2 := by
  have locals := hoisting.locals
  have sources := hoisting.sources
  rw [← map_snd_hoisted] at locals
  rw [← map_fst_hoisted, forall₂_map_left_iff] at sources
  generalize hoisted l.components = names at locals sources found
  clear hoisting
  induction sources with
  | nil => cases found
  | @cons entry hoist _ _ first _ ih =>
    rw [map_cons, map_cons, List.cons.injEq] at locals
    rw [lookup_cons] at found
    cases same : source == entry.1 with
    | true =>
      rw [same] at found
      cases found
      obtain rfl : source = entry.1 := by simpa using same
      exact ⟨hoist, mem_cons_self, locals.1.symm, first⟩
    | false =>
      rw [same] at found
      obtain ⟨hoist, listed, stands⟩ := ih locals.2 found
      exact ⟨hoist, mem_cons_of_mem _ listed, stands⟩

end IsHoisted

variable {source : String}

theorem isIdentifier_of_lookup_eq_none {components : List Coeff} (input : source ∈ hostInputs components)
    (missing : (hoisted components).lookup source = none) : Text.isIdentifier source = true := by
  by_contra other
  have listed : source ∈ (hoisted components).map (·.1) := by
    rw [map_fst_hoisted]
    exact mem_filter.mpr ⟨input, by simpa using other⟩
  obtain ⟨entry, mem, same⟩ := mem_map.mp listed
  rw [lookup_eq_none_iff] at missing
  simpa [same] using missing entry mem

/-! ### Numbers for renamed inputs -/

section

variable {p q : Place} {number : Value → Option ℚ} (contractual : p.KeepsContract) (contractual' : q.KeepsContract)
include contractual contractual'

variable {f : String → Option String}

theorem carries_local {e : Expr} {k : Nat}
    (renamed : newName f source = localName k) (read : Expr.read source = .ok e) (known : ∃ v, p.value e = .ok v)
    (exactly : p.Exact number e) (same : q.lookup (localName k) = p.value e) :
    Carries f (p.readings number) (q.readings number) source := by
  intro e' read'
  cases read.symm.trans read'
  have single : ∀ a, e ≠ .starred a := by
    rintro a rfl
    obtain ⟨v, ⟨⟩⟩ := known
  have valued : q.value (.name (localName k)) = p.value e := same
  refine ⟨.name (localName k), renamed ▸ read_localName k, fun x found => ?_, fun i x found => ?_⟩
  · show (q.value (.name (localName k))).toOption.bind number = some x
    rw [valued]
    exact exactly x found
  · rwa [Place.component_congr contractual contractual' single (by simp) valued]

theorem carries_plain (kept : f source = none) (plain : Text.isIdentifier source = true)
    (same : ∀ id, Expr.read source = .ok (.name id) → q.lookup id = p.lookup id) :
    Carries f (p.readings number) (q.readings number) source := by
  intro e read
  refine ⟨e, by rwa [newName, kept], ?_⟩
  rcases read_identifier plain read with ⟨id, rfl⟩ | ⟨literal, rfl⟩
  · have valued : q.value (.name id) = p.value (.name id) := same id read
    refine ⟨fun x found => ?_, fun i x found => ?_⟩
    · show (q.value (.name id)).toOption.bind number = some x
      rw [valued]
      exact found
    · rwa [Place.component_congr contractual contractual' (by simp) (by simp) valued]
  · have valued : q.value (.literal literal) = p.value (.literal literal) := rfl
    refine ⟨fun x found => ?_, fun i x found => ?_⟩
    · cases literal <;> exact found
    · rwa [Place.component_congr contractual contractual' (by simp) (by simp) valued]

theorem carries_inputs {l : Layout} {hoists : List (String × Expr)} (hoisting : IsHoisted l hoists)
    (ready : ∀ hoist ∈ hoists, (∃ v, p.value hoist.2 = .ok v) ∧ p.Exact number hoist.2)
    (held : ∀ hoist ∈ hoists, q.lookup hoist.1 = p.value hoist.2) (agrees : ∀ id, Reads l id → q.lookup id = p.lookup id) :
    ∀ source ∈ hostInputs l.components,
      Carries (fun s => (hoisted l.components).lookup s) (p.readings number) (q.readings number) source := by
  intro source input
  cases found : (hoisted l.components).lookup source with
  | none =>
    refine carries_plain contractual contractual' found (isIdentifier_of_lookup_eq_none input found) fun id read => ?_
    exact agrees id ⟨source, input, _, read, .self⟩
  | some t =>
    obtain ⟨hoist, mem, same, read⟩ := hoisting.of_lookup_eq_some found
    obtain ⟨k, number⟩ := hoisting.numbered hoist.1 (mem_map_of_mem mem)
    have renamed : newName (fun s => (hoisted l.components).lookup s) source = localName k := by
      rw [newName, found, ← number]
      exact same
    obtain ⟨known, exactly⟩ := ready hoist mem
    exact carries_local contractual contractual' renamed read known exactly (number ▸ held hoist mem)

end

/-! ### Renamed layouts -/

theorem dimension_renameInputs (l : Layout) (names : List (String × String)) :
    (renameInputs l names).dimension = l.dimension := by
  unfold renameInputs
  split <;> rfl

theorem grades_renameInputs (l : Layout) (names : List (String × String)) :
    (renameInputs l names).grades = l.grades.map fun part => (part.1, part.2.map (rename fun s => names.lookup s)) := by
  unfold renameInputs
  split
  · rename_i none
    obtain rfl : names = [] := by simpa using none
    have same : rename (fun s => ([] : List (String × String)).lookup s) = id :=
      funext fun e => rename_of_none (rename?_of_no_names (fun _ => rfl) e)
    rw [same]
    simp
  · rfl

theorem isFull_renameInputs {l : Layout} (full : IsFull l) (names : List (String × String)) :
    IsFull (renameInputs l names) := by
  intro part mem
  rw [grades_renameInputs] at mem
  obtain ⟨part, listed, rfl⟩ := mem_map.mp mem
  rw [dimension_renameInputs, length_map]
  exact full part listed

theorem Amounts.renameInputs {r r' : Readings} {l : Layout} {amounts : List (Int × List ℚ)} (valued : Amounts r l amounts)
    {names : List (String × String)}
    (carried : ∀ source ∈ hostInputs l.components, Carries (fun s => names.lookup s) r r' source) :
    Amounts r' (renameInputs l names) amounts := by
  rw [Amounts, grades_renameInputs, forall₂_map_left_iff]
  have mem : ∀ part ∈ l.grades, ∀ c ∈ part.2, c ∈ l.components := fun part listed c own =>
    mem_flatMap.mpr ⟨part, listed, own⟩
  refine ((forall₂_and_left _ _).mpr ⟨mem, valued⟩).imp fun part amount both => ⟨both.2.1, ?_⟩
  rw [forall₂_map_left_iff]
  refine ((forall₂_and_left _ _).mpr ⟨both.1, both.2.2⟩).imp fun c x own => own.2.rename fun s named => ?_
  exact carried s (mem_hostInputs.mpr ⟨c, own.1, named⟩)

theorem isIdentifier_renameInputs {l : Layout}
    (input : source ∈ hostInputs (renameInputs l (hoisted l.components)).components) :
    Text.isIdentifier source = true := by
  obtain ⟨c, mem, named⟩ := mem_hostInputs.mp input
  rw [Layout.components, grades_renameInputs] at mem
  obtain ⟨_, renamed, mem⟩ := mem_flatMap.mp mem
  obtain ⟨part, listed, rfl⟩ := mem_map.mp renamed
  obtain ⟨c, own, rfl⟩ := mem_map.mp mem
  obtain ⟨s, occurs, rfl⟩ := mem_symbols_rename source named
  have input : s ∈ hostInputs l.components := mem_hostInputs.mpr ⟨c, mem_flatMap.mpr ⟨part, listed, own⟩, occurs⟩
  rw [newName]
  cases found : (hoisted l.components).lookup s with
  | none => exact isIdentifier_of_lookup_eq_none input found
  | some t =>
    have numbered : t ∈ (hoisted l.components).map (·.2) := mem_map_of_mem (mem_of_lookup found)
    rw [map_snd_hoisted] at numbered
    obtain ⟨k, -, rfl⟩ := mem_map.mp numbered
    exact isIdentifier_localName k

end Bladewright.Code
