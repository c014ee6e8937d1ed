/-!
Terms of a multivector: blades with coefficients, each blade at most once, in the order in which the blades first
appeared. A blade that is absent has coefficient zero; a blade may also be present with coefficient zero.
-/
namespace Bladewright

/-- Adds a coefficient to that of a blade, or the blade at the end. -/
def accumulate {α : Type} (add : α → α → α) (blade : Nat) (c : α) : List (Nat × α) → List (Nat × α)
  | [] => [(blade, c)]
  | (b, d) :: rest =>
    if b = blade then (b, add d c) :: rest else (b, d) :: accumulate add blade c rest

theorem map_fst_accumulate {α : Type} (add : α → α → α) (blade : Nat) (c : α)
    (entries : List (Nat × α)) :
    (accumulate add blade c entries).map (·.1) =
      if blade ∈ entries.map (·.1) then entries.map (·.1) else entries.map (·.1) ++ [blade] := by
  induction entries with
  | nil => simp [accumulate]
  | cons entry rest ih =>
    by_cases h : entry.1 = blade
    · simp [accumulate, h]
    · have h' : ¬ blade = entry.1 := fun e => h e.symm
      simp only [accumulate, h, if_false, List.map_cons, ih, List.mem_cons, h', false_or]
      split <;> simp

/-- Blades with coefficients, each blade at most once. -/
structure Terms (α : Type) where
  entries : List (Nat × α)
  distinct : (entries.map (·.1)).Nodup

namespace Terms

variable {α β : Type}

def empty : Terms α := ⟨[], by simp⟩

def single (blade : Nat) (c : α) : Terms α := ⟨[(blade, c)], by simp⟩

instance : Inhabited (Terms α) := ⟨empty⟩

def blades (A : Terms α) : List Nat := A.entries.map (·.1)

def coefficients (A : Terms α) : List α := A.entries.map (·.2)

def get? (A : Terms α) (blade : Nat) : Option α := A.entries.lookup blade

/-- The coefficient of a blade, zero if it is absent. -/
def coeff [OfNat α 0] (A : Terms α) (blade : Nat) : α := (A.get? blade).getD 0

/-- Adds a coefficient to that of a blade. -/
def addAt (add : α → α → α) (A : Terms α) (blade : Nat) (c : α) : Terms α where
  entries := accumulate add blade c A.entries
  distinct := by
    rw [map_fst_accumulate]
    split
    · exact A.distinct
    · rename_i h
      rw [List.nodup_append]
      refine ⟨A.distinct, by simp, ?_⟩
      intro a ha b hb
      simp only [List.mem_singleton] at hb
      subst hb
      exact fun e => h (e ▸ ha)

/-- Terms from a list, where a later coefficient of a blade replaces an earlier one. -/
def ofList (entries : List (Nat × α)) : Terms α :=
  entries.foldl (fun A e => A.addAt (fun _ new => new) e.1 e.2) empty

def map (f : Nat → α → β) (A : Terms α) : Terms β where
  entries := A.entries.map fun e => (e.1, f e.1 e.2)
  distinct := by
    have h : (A.entries.map fun e => (e.1, f e.1 e.2)).map (·.1) = A.entries.map (·.1) := by
      rw [List.map_map]
      rfl
    rw [h]
    exact A.distinct

def filter (p : Nat → Bool) (A : Terms α) : Terms α where
  entries := A.entries.filter fun e => p e.1
  distinct := A.distinct.sublist (List.filter_sublist.map _)

/-- Replaces each blade by its complement in `full`, and changes the coefficients. -/
def complement (full : Nat) (f : Nat → α → β) (A : Terms α) : Terms β where
  entries := A.entries.map fun e => (full ^^^ e.1, f e.1 e.2)
  distinct := by
    have h : (A.entries.map fun e => (full ^^^ e.1, f e.1 e.2)).map (·.1)
        = (A.entries.map (·.1)).map (full ^^^ ·) := by
      rw [List.map_map, List.map_map]
      rfl
    rw [h]
    refine List.Pairwise.map _ ?_ A.distinct
    intro a b hab e
    apply hab
    have := congrArg (full ^^^ ·) e
    simpa [← Nat.xor_assoc] using this

end Terms

end Bladewright
