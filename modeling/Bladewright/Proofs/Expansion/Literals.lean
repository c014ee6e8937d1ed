import Bladewright.Proofs.Expansion.Keeps

/-!
Literals under expansion: a tree that is expanded has no literals but its own and those of the bindings.
-/
namespace Bladewright

open List

namespace Tree

def literal? : Tree → Option Scalar
  | literal value => some value
  | _ => none

def literals (t : Tree) : List Scalar := t.walk.filterMap literal?

@[simp] theorem literals_literal (v : Scalar) : (literal v).literals = [v] := rfl

@[simp] theorem literals_operation (op : Op) (args : List Tree) :
    (operation op args).literals = args.flatMap literals := by
  show (walkAll args).filterMap literal? = args.flatMap literals
  rw [walkAll_eq, filterMap_flatMap]
  rfl

end Tree

namespace Table

def literals (table : Table) : List Scalar :=
  table.references.flatMap (·.2.literals) ++ table.functions.flatMap (·.2.body.literals)

theorem mem_literals {table : Table} {v : Scalar} : v ∈ table.literals ↔ ∃ t ∈ table.trees, v ∈ t.literals := by
  have all : table.literals = table.trees.flatMap Tree.literals := by
    unfold literals trees
    rw [flatMap_append, flatMap_map, flatMap_map]
  rw [all, mem_flatMap]

end Table

namespace Expansion

variable {table : Table}

theorem keeps_literals (P : Scalar → Prop) :
    Keeps (fun node => ∀ v, node.literal? = some v → P v) (fun _ t => ∀ v ∈ t.literals, P v) where
  literal _ own := by simpa [Tree.literal?] using own
  blade _ _ := by rintro v ⟨⟩
  host _ _ := by rintro v ⟨⟩
  basis _ := by rintro v ⟨⟩
  input _ := by rintro v ⟨⟩
  under done := done
  typed _ operand := operand
  operation _ _ _ each := by
    rw [Tree.literals_operation, forall_mem_flatMap]
    exact each

theorem literals_expand {tree expanded : Tree} (done : expand table tree = .ok expanded) {v : Scalar}
    (mem : v ∈ expanded.literals) : v ∈ tree.literals ∨ v ∈ table.literals := by
  have written {t : Tree} {P : Scalar → Prop} (own : ∀ v ∈ t.literals, P v) :
      t.Every fun node => ∀ v, node.literal? = some v → P v := fun node below v value =>
    own v (mem_filterMap.mpr ⟨node, below, value⟩)
  refine (keeps_literals fun v => v ∈ tree.literals ∨ v ∈ table.literals).expand ?_ ?_ done v mem
  · exact fun t bound => written fun v found => .inr (Table.mem_literals.mpr ⟨t, bound, found⟩)
  · exact written fun v found => .inl found

end Expansion

end Bladewright
