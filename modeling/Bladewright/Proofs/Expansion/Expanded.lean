import Bladewright.Proofs.Evaluation.Simulation

/-!
What an expansion leaves: literals, blades, host expressions, typed operands and operations only
(`isExpanded_expand`).
-/
namespace Bladewright

open List

namespace Tree

def isExpandedNode : Tree → Bool
  | literal _ | blade _ | host _ | typed .. | operation .. => true
  | symbol _ | call .. | argument _ | unknown => false

/-- A tree of literals, blades, host expressions, typed operands and operations only. -/
def IsExpanded (t : Tree) : Prop := t.Every (isExpandedNode ·)

def isHost : Tree → Bool
  | host _ => true
  | _ => false

theorem scalarsAll_eq (ts : List Tree) : scalarsAll ts = ts.flatMap scalars := by
  induction ts with
  | nil => rfl
  | cons t ts ih => rw [scalarsAll, ih, flatMap_cons]

end Tree

namespace Expansion

variable {table : Table}

theorem keeps_isExpanded : Keeps (fun _ => True) (fun _ t => t.IsExpanded) :=
  keeps_every (fun _ => rfl) (fun _ => rfl) (fun _ => rfl) (fun _ _ => rfl) fun _ _ => rfl

theorem isExpanded_expand {tree expanded : Tree} (done : expand table tree = .ok expanded) : expanded.IsExpanded :=
  keeps_isExpanded.expand (fun _ _ _ _ => trivial) (fun _ _ => trivial) done

/-- A host expression can only be reached directly under a type, where it is no scalar. -/
theorem keeps_no_scalars :
    Keeps (fun node => node.isHost = false) (fun host t => t.scalars = [] ∨ host = true ∧ t.isHost = true) where
  literal _ _ := .inl rfl
  blade _ _ := .inl rfl
  host _ written := by cases written
  basis _ := .inl rfl
  input _ := .inr ⟨rfl, rfl⟩
  under done := .inl (by simpa using done)
  typed {operand spec} _ done := by
    left
    cases operand with
    | host source => rfl
    | _ =>
      rw [Tree.scalars_typed (by rintro source ⟨⟩)]
      simpa [Tree.isHost] using done
  operation _ _ _ each := by
    left
    rw [Tree.scalars, Tree.scalarsAll_eq, flatMap_eq_nil_iff]
    intro t mem
    simpa using each t mem

mutual

theorem visit_of_isExpanded (stack : List Key) (enter : Enter) (host : Bool) (frame : Frame) : ∀ t : Tree,
    t.IsExpanded → visit table stack enter host frame t = .ok t
  | .literal _, _ | .blade _, _ | .host _, _ => rfl
  | .typed operand spec, expanded => by
    have below := visit_of_isExpanded stack enter true frame operand (Tree.every_typed.mp expanded).2
    rw [visit, below]
    rfl
  | .operation op args, expanded => by
    have below := visitAll_of_isExpanded stack enter frame args (Tree.every_operation.mp expanded).2
    rw [visit, below]
    rfl
  | .symbol _, expanded | .argument _, expanded | .unknown, expanded => by cases (Tree.every_of_leaf rfl).mp expanded
  | .call _ _, expanded => by cases (Tree.every_call.mp expanded).1

theorem visitAll_of_isExpanded (stack : List Key) (enter : Enter) (frame : Frame) : ∀ ts : List Tree,
    (∀ t ∈ ts, t.IsExpanded) → visitAll table stack enter frame ts = .ok ts
  | [], _ => rfl
  | t :: ts, expanded => by
    rw [forall_mem_cons] at expanded
    rw [visitAll, visit_of_isExpanded stack enter false frame t expanded.1,
      visitAll_of_isExpanded stack enter frame ts expanded.2]
    rfl

end

/-- An expansion leaves a tree of literals, blades, host expressions, typed operands and operations only, and a
further expansion leaves this tree as it is, under any table. If neither the tree nor a binding has a host
expression in it, then all that are left are typed inputs: no unbound name becomes a host scalar. -/
theorem expand_leaves_expanded {tree expanded : Tree} (done : expand table tree = .ok expanded) :
    expanded.IsExpanded ∧ (∀ other : Table, expand other expanded = .ok expanded) ∧
    ((∀ t ∈ tree :: table.trees, ∀ source, .host source ∉ t.walk) → expanded.scalars = []) := by
  have left := isExpanded_expand done
  refine ⟨left, fun other => visit_of_isExpanded _ _ _ _ expanded left, fun untyped => ?_⟩
  have unwritten : ∀ t ∈ tree :: table.trees, t.Every fun node => node.isHost = false := by
    intro t mem node below
    cases node with
    | host source => exact absurd below (untyped t mem source)
    | _ => rfl
  rw [forall_mem_cons] at unwritten
  simpa using keeps_no_scalars.expand unwritten.2 unwritten.1 done

def squareTable : Table :=
  { Table.builtin with
    references := [("x", .typed (.symbol "x") (.named 1 "Vector"))]
    functions := ("square", ⟨1, Builtin.times Builtin.a (Builtin.call₁ "reverse" Builtin.a)⟩) :: Builtin.functions }

def squareExpanded : Tree :=
  .operation .geometricProduct [.typed (.host "x") (.named 1 "Vector"),
    .operation .reverse [.typed (.host "x") (.named 1 "Vector")]]

theorem expand_square_expanded :
    expand squareTable (.call "square" [.symbol "x"]) = .ok squareExpanded ∧ squareExpanded.IsExpanded ∧
    (∀ other : Table, expand other squareExpanded = .ok squareExpanded) ∧ squareExpanded.scalars = [] := by
  have done : expand squareTable (.call "square" [.symbol "x"]) = .ok squareExpanded := rfl
  have unwritten : ∀ t ∈ .call "square" [.symbol "x"] :: squareTable.trees, ∀ node ∈ t.walk, node.isHost = false := by
    decide +kernel
  obtain ⟨left, stable, typed⟩ := expand_leaves_expanded done
  refine ⟨done, left, stable, typed fun t mem source below => ?_⟩
  cases unwritten t mem _ below

end Expansion

end Bladewright
