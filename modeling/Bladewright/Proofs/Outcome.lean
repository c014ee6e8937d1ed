import Mathlib.Data.List.Forall2

/-!
Outcomes of computations that may fail: what is known of the steps when the whole succeeds (`of_bind`, `of_mapM`), and
what is known of the whole when each step is known to meet its part (`Meets`).
-/
namespace Bladewright

open List

theorem mem_of_lookup {κ α : Type*} [BEq κ] [LawfulBEq κ] {entries : List (κ × α)} {key : κ} {a : α}
    (found : entries.lookup key = some a) : (key, a) ∈ entries := by
  obtain ⟨before, after, rfl, -⟩ := lookup_eq_some_iff.mp found
  simp

namespace Outcome

variable {ε α β : Type}

variable {b : β} {f : α → Except ε β} {e : ε} {a : α} {xs : List α} {ys : List β} {γ : Type}

theorem of_bind {outcome : Except ε α} (done : outcome >>= f = .ok b) : ∃ a, outcome = .ok a ∧ f a = .ok b := by
  cases outcome with
  | error e => cases done
  | ok a => exact ⟨a, rfl, done⟩

theorem of_map {f : α → β} {outcome : Except ε α} (done : outcome.map f = .ok b) : ∃ a, outcome = .ok a ∧ f a = b := by
  cases outcome with
  | error e => cases done
  | ok a => exact ⟨a, rfl, Except.ok.inj done⟩

theorem of_map_error {f : α → β} {outcome : Except ε α} (failed : outcome.map f = .error e) : outcome = .error e := by
  cases outcome with
  | error _ => exact congrArg Except.error (Except.error.inj failed)
  | ok a => cases failed

theorem of_mapError {δ : Type} {f : ε → δ} {outcome : Except ε α} (done : outcome.mapError f = .ok a) :
    outcome = .ok a := by
  cases outcome with
  | error e => cases done
  | ok _ => exact congrArg Except.ok (Except.ok.inj done)

theorem of_toOption {outcome : Except ε α} (done : outcome.toOption = some a) : outcome = .ok a := by
  cases outcome with
  | error e => cases done
  | ok _ => exact congrArg Except.ok (Option.some.inj done)

theorem of_mapM (done : xs.mapM f = .ok ys) : List.Forall₂ (fun x y => f x = .ok y) xs ys := by
  induction xs generalizing ys with
  | nil =>
    cases done
    exact .nil
  | cons x xs ih =>
    rw [mapM_cons] at done
    obtain ⟨y, first, done⟩ := of_bind done
    obtain ⟨rest, others, ⟨⟩⟩ := of_bind done
    exact .cons first (ih others)

theorem mem_of_mapM (done : xs.mapM f = .ok ys) {y : β} (mem : y ∈ ys) : ∃ x ∈ xs, f x = .ok y := by
  have each := of_mapM done
  clear done
  induction each with
  | nil => cases mem
  | @cons x _ xs _ first _ ih =>
    rcases mem_cons.mp mem with rfl | mem
    · exact ⟨x, mem_cons_self, first⟩
    · obtain ⟨x', listed, found⟩ := ih mem
      exact ⟨x', mem_cons_of_mem _ listed, found⟩

theorem exists_of_mapM (done : xs.mapM f = .ok ys) {x : α} (mem : x ∈ xs) : ∃ y ∈ ys, f x = .ok y := by
  have each := of_mapM done
  clear done
  induction each with
  | nil => cases mem
  | @cons _ y _ ys first _ ih =>
    rcases mem_cons.mp mem with rfl | mem
    · exact ⟨y, mem_cons_self, first⟩
    · obtain ⟨y', listed, found⟩ := ih mem
      exact ⟨y', mem_cons_of_mem _ listed, found⟩

theorem mapM_ok {g : α → β} (each : ∀ x ∈ xs, f x = .ok (g x)) : xs.mapM f = .ok (xs.map g) := by
  induction xs with
  | nil => rfl
  | cons x xs ih =>
    rw [forall_mem_cons] at each
    rw [mapM_cons, each.1, ih each.2]
    rfl

theorem mapM_map (f : α → Except ε β) (g : β → γ) (xs : List α) :
    xs.mapM (fun x => (f x).map g) = (xs.mapM f).map (List.map g) := by
  induction xs with
  | nil => rfl
  | cons x xs ih =>
    rw [mapM_cons, mapM_cons, ih]
    cases f x with
    | error e => rfl
    | ok y => cases xs.mapM f <;> rfl

/-- If a computation returns a value, the value has property `P`; if it fails, its error has property `Q`. -/
def Meets (Q : ε → Prop) (P : α → Prop) : Except ε α → Prop
  | .ok a => P a
  | .error e => Q e

namespace Meets

variable {Q : ε → Prop} {P : α → Prop} {R : β → Prop} {outcome : Except ε α}

theorem bind (first : Meets Q P outcome) (next : ∀ a, P a → Meets Q R (f a)) : Meets Q R (outcome >>= f) := by
  cases outcome with
  | error e => exact first
  | ok a => exact next a first

theorem mapM {f : γ → Except ε α} {xs : List γ} (each : ∀ x ∈ xs, Meets Q P (f x)) :
    Meets Q (fun ys => ∀ y ∈ ys, P y) (xs.mapM f) := by
  induction xs with
  | nil => exact forall_mem_nil P
  | cons x xs ih =>
    rw [forall_mem_cons] at each
    rw [mapM_cons]
    exact each.1.bind fun y first => (ih each.2).bind fun ys rest => forall_mem_cons.mpr ⟨first, rest⟩

theorem of_ok (meets : Meets Q P outcome) (done : outcome = .ok a) : P a := by
  subst done
  exact meets

theorem of_error (meets : Meets Q P outcome) (failed : outcome = .error e) : Q e := by
  subst failed
  exact meets

end Meets

end Outcome

end Bladewright
