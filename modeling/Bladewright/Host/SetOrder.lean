/-!
The order in which a set lists its elements. An element takes a slot of a table that its hash decides, or the next
free one by a fixed way of probing; the table grows when it is more than three fifths full. The elements are listed by
slot.
-/
namespace Bladewright.Host.SetOrder

/-- The first free slot of a table with slots up to `last` that a hash probes: a run of ten slots where it
fits, one slot elsewhere, and then a slot that the rest of the hash decides. -/
def freeSlot (last : Nat) (taken : List Nat) : Nat → Nat → Nat → Nat
  | 0, _, slot => slot
  | tries + 1, rest, slot =>
    let run := if slot + 9 ≤ last then 10 else 1
    match (List.range run).find? fun k => !taken.contains (slot + k) with
    | some k => slot + k
    | none =>
      let rest := rest / 32
      freeSlot last taken tries rest ((5 * slot + 1 + rest) % (last + 1))

/-- A table: its last slot, and the elements with their slots and hashes. -/
structure Table (α : Type) where
  last : Nat := 7
  entries : List (Nat × Nat × α) := []

variable {α : Type}

def Table.place (t : Table α) (hash : Nat) (element : α) : Table α :=
  let slot := freeSlot t.last (t.entries.map (·.1)) (t.last + 64) hash (hash % (t.last + 1))
  { t with entries := (slot, hash, element) :: t.entries }

def Table.sorted (t : Table α) : List (Nat × Nat × α) := t.entries.mergeSort fun a b => a.1 ≤ b.1

def tableSize (n : Nat) : Nat := max 8 (Nat.pow 2 (n.log2 + 1))

/-- Puts an element into a table, which grows to four times the number of its elements if it gets full. -/
def Table.insert (t : Table α) (hash : Nat) (element : α) : Table α :=
  let t := t.place hash element
  let count := t.entries.length
  if count * 5 < t.last * 3 then t
  else t.sorted.foldl (fun grown (_, h, e) => grown.place h e) { last := tableSize (count * 4) - 1 }

def Table.ofHashes (elements : List (Nat × α)) : Table α :=
  elements.foldl (fun t (hash, e) => t.insert hash e) {}

def Table.copied (t : Table α) : Table α :=
  let count := t.entries.length
  let last := if count * 5 < 21 then 7 else tableSize (count * 2) - 1
  if last = t.last then t else t.sorted.foldl (fun copy (_, h, e) => copy.place h e) { last }

/-- Distinct elements, each with its hash, in the order in which a set lists them. A set of constants is
copied from one that is made in advance, and made anew in the order of the first. -/
def ofHashes (elements : List (Nat × α)) (constant : Bool) : List α :=
  let t := Table.ofHashes elements
  let made := if constant then (Table.ofHashes (t.sorted.map (·.2))).copied else t
  made.sorted.map (·.2.2)

end Bladewright.Host.SetOrder
