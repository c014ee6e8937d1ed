import Bladewright.Algebra.Product
import Mathlib.Algebra.Group.Nat.Defs

/-!
The coefficient of a blade after each operation, over coefficients of any kind: no law of arithmetic is used. A blade
is present if and only if it has a coefficient.
-/
namespace Bladewright

open List

theorem lookup_accumulate {α : Type} (add : α → α → α) (blade : Nat) (c : α) (entries : List (Nat × α)) (b : Nat) :
    (accumulate add blade c entries).lookup b =
      if b = blade then some ((entries.lookup b).elim c (add · c)) else entries.lookup b := by
  induction entries with
  | nil =>
    by_cases same : b = blade
    · simp [accumulate, same]
    · simp [accumulate, same, lookup_cons, beq_eq_false_iff_ne.mpr same]
  | cons entry entries ih =>
    obtain ⟨b', d⟩ := entry
    by_cases found : b' = blade
    · subst found
      by_cases same : b = b'
      · simp [accumulate, same]
      · simp [accumulate, same, lookup_cons, beq_eq_false_iff_ne.mpr same]
    · by_cases same : b = b'
      · subst same
        simp [accumulate, found]
      · simp [accumulate, found, lookup_cons, beq_eq_false_iff_ne.mpr same, ih]

namespace Terms

variable {α : Type}

variable {A : Terms α} {blade : Nat}

theorem isSome_get? : (A.get? blade).isSome ↔ blade ∈ A.blades := by
  simp [get?, blades]

theorem get?_addAt (add : α → α → α) (A : Terms α) (blade : Nat) (c : α) (b : Nat) :
    (A.addAt add blade c).get? b = if b = blade then some ((A.get? b).elim c (add · c)) else A.get? b :=
  lookup_accumulate add blade c A.entries b

theorem coeff_eq_zero [OfNat α 0] (absent : blade ∉ A.blades) : A.coeff blade = 0 := by
  rw [← isSome_get?, Option.not_isSome_iff_eq_none] at absent
  rw [coeff, absent]
  rfl

theorem eq_empty_of_blades (bladeless : A.blades = []) : A = empty := by
  obtain ⟨entries, distinct⟩ := A
  obtain rfl : entries = [] := map_eq_nil_iff.mp bladeless
  rfl

theorem mem_blades_gradePart {k : Nat} : blade ∈ (A.gradePart k).blades ↔ blade ∈ A.blades ∧ Blade.grade blade = k := by
  simp only [blades, gradePart, filter, mem_map, mem_filter, beq_iff_eq]
  constructor
  · rintro ⟨entry, ⟨stored, graded⟩, rfl⟩
    exact ⟨⟨entry, stored, rfl⟩, graded⟩
  · rintro ⟨⟨entry, stored, rfl⟩, graded⟩
    exact ⟨entry, ⟨stored, graded⟩, rfl⟩

/-! ### The coefficients of a product -/

section

variable [Add α] [Mul α] [Neg α] (s : Signature) (select : Selection)

def addUp (first : Option α) (cs : List α) : Option α :=
  cs.foldl (fun sum c => some (sum.elim c (· + c))) first

def contribution? (blade : Nat) (e f : Nat × α) : Option α :=
  if select e.1 f.1 = true ∧ Blade.productSign s e.1 f.1 ≠ 0 ∧ e.1 ^^^ f.1 = blade then
    some (signedMul (Blade.productSign s e.1 f.1) e.2 f.2)
  else none

def contributions (A B : List (Nat × α)) (blade : Nat) : List α :=
  A.flatMap fun e => B.filterMap (contribution? s select blade e)

theorem get?_multiplyTerm (a : Nat) (x : α) (B : List (Nat × α)) (acc : Terms α) (blade : Nat) :
    (multiplyTerm s select a x B acc).get? blade =
      addUp (acc.get? blade) (B.filterMap (contribution? s select blade (a, x))) := by
  unfold multiplyTerm
  induction B generalizing acc with
  | nil => rfl
  | cons entry B ih =>
    obtain ⟨b, y⟩ := entry
    rw [foldl_cons, ih, filterMap_cons]
    by_cases taken : select a b = true ∧ Blade.productSign s a b ≠ 0
    · obtain ⟨selected, nonzero⟩ := taken
      by_cases here : a ^^^ b = blade
      · simp [contribution?, selected, nonzero, here, get?_addAt, addUp]
      · simp [contribution?, selected, nonzero, here, get?_addAt, Ne.symm here]
    · have skipped : (if select a b = true then
          if Blade.productSign s a b = 0 then acc
          else acc.addAt (· + ·) (a ^^^ b) (signedMul (Blade.productSign s a b) x y)
        else acc) = acc := by
        split
        · rename_i selected
          exact if_pos (Decidable.not_not.mp fun nonzero => taken ⟨selected, nonzero⟩)
        · rfl
      have missing : contribution? s select blade (a, x) (b, y) = none :=
        if_neg fun all => taken ⟨all.1, all.2.1⟩
      simp only [skipped, missing]

theorem get?_multiply (A B : Terms α) (blade : Nat) :
    (multiply s select A B).get? blade = addUp none (contributions s select A.entries B.entries blade) := by
  have loop : ∀ (entries : List (Nat × α)) (acc : Terms α),
      (entries.foldl (fun acc (e : Nat × α) => multiplyTerm s select e.1 e.2 B.entries acc) acc).get? blade
        = addUp (acc.get? blade) (contributions s select entries B.entries blade) := by
    intro entries
    induction entries with
    | nil => intro acc; rfl
    | cons entry entries ih =>
      intro acc
      rw [foldl_cons, ih, get?_multiplyTerm, contributions, contributions, flatMap_cons, addUp, addUp, addUp,
        foldl_append]
  exact loop A.entries empty

omit [Mul α] [Neg α] in
theorem isSome_addUp (cs : List α) : (addUp none cs).isSome ↔ cs ≠ [] := by
  cases cs with
  | nil => simp [addUp]
  | cons c cs =>
    have present : ∀ (cs : List α) (c : α), (addUp (some c) cs).isSome := by
      intro cs
      induction cs with
      | nil => intro c; rfl
      | cons d cs ih => intro c; exact ih (c + d)
    exact iff_of_true (present cs c) (cons_ne_nil c cs)

theorem mem_blades_multiply {B : Terms α} : blade ∈ (multiply s select A B).blades ↔
      ∃ a ∈ A.blades, ∃ b ∈ B.blades, select a b = true ∧ Blade.productSign s a b ≠ 0 ∧ a ^^^ b = blade := by
  rw [← isSome_get?, get?_multiply, isSome_addUp]
  constructor
  · intro full
    obtain ⟨c, mem⟩ := exists_mem_of_ne_nil _ full
    obtain ⟨e, left, mem⟩ := mem_flatMap.mp mem
    obtain ⟨f, right, found⟩ := mem_filterMap.mp mem
    unfold contribution? at found
    split at found
    · rename_i pair
      exact ⟨e.1, mem_map_of_mem left, f.1, mem_map_of_mem right, pair⟩
    · cases found
  · rintro ⟨a, left, b, right, pair⟩
    obtain ⟨e, stored, rfl⟩ := mem_map.mp left
    obtain ⟨f, stored', rfl⟩ := mem_map.mp right
    exact ne_nil_of_mem (mem_flatMap.mpr ⟨e, stored, mem_filterMap.mpr ⟨f, stored', if_pos pair⟩⟩)

end

end Terms

end Bladewright
