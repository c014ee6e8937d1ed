import Bladewright.Proofs.Expansion.Cycles
import Bladewright.Proofs.Expansion.Expanded

/-!
What an expansion depends on. A tree reaches the names and calls that it mentions, and through a binding those that
the tree of the binding mentions (`Reaches`).
-/
namespace Bladewright

open List

open Expansion in
def Binding.key (name : String) : Binding → Key
  | reference _ => ⟨.reference, name⟩
  | function _ => ⟨.function, name⟩

namespace Expansion

def binding? (table : Table) : Key → Option Binding
  | ⟨.reference, name⟩ => (table.reference? name).map .reference
  | ⟨.function, name⟩ => (table.function? name).map .function

/-- The names and calls, bound or not, that a tree leads to through the trees of bindings. -/
inductive Reaches (table : Table) (tree : Tree) : Key → Prop
  | mentioned {key : Key} : key ∈ mentions tree → Reaches table tree key
  | through {key other : Key} {inner : Tree} : Reaches table tree key → boundTree? table key = some inner →
    other ∈ mentions inner → Reaches table tree other

/-- A set of keys on which two tables agree, and which no binding among them leaves. -/
structure Agreed (left right : Table) (known : Key → Prop) : Prop where
  same {key : Key} : known key → binding? left key = binding? right key
  closed {key : Key} {tree : Tree} : known key → boundTree? left key = some tree → ∀ other ∈ mentions tree, known other

section

variable {left right : Table} {known : Key → Prop}

theorem Agreed.known_of_reaches (agreed : Agreed left right known) {tree : Tree}
    (own : ∀ key ∈ mentions tree, known key) {key : Key} (reached : Reaches left tree key) : known key := by
  induction reached with
  | mentioned mem => exact own _ mem
  | through _ bound mem ih => exact agreed.closed ih bound _ mem

theorem Agreed.reference? (agreed : Agreed left right known) {name : String} (mem : known ⟨.reference, name⟩) :
    left.reference? name = right.reference? name := by
  have same : (left.reference? name).map Binding.reference = (right.reference? name).map Binding.reference :=
    agreed.same mem
  exact Option.map_injective (fun _ _ => Binding.reference.inj) same

theorem Agreed.function? (agreed : Agreed left right known) {name : String} (mem : known ⟨.function, name⟩) :
    left.function? name = right.function? name := by
  have same : (left.function? name).map Binding.function = (right.function? name).map Binding.function :=
    agreed.same mem
  exact Option.map_injective (fun _ _ => Binding.function.inj) same

variable {name : String} {args : List Tree}

theorem Agreed.symbol (agreed : Agreed left right known)
    (own : ∀ key ∈ mentions (.symbol name), known key) : left.reference? name = right.reference? name :=
  agreed.reference? (own ⟨.reference, name⟩ (by simp))

theorem Agreed.call (agreed : Agreed left right known)
    (own : ∀ key ∈ mentions (.call name args), known key) : left.function? name = right.function? name :=
  agreed.function? (own ⟨.function, name⟩ (by simp))

theorem Agreed.rhs (agreed : Agreed left right known) {name : String} {rhs : Tree}
    (own : ∀ key ∈ mentions (.symbol name), known key) (found : left.reference? name = some rhs) :
    ∀ key ∈ mentions rhs, known key :=
  agreed.closed (own ⟨.reference, name⟩ (by simp)) found

theorem Agreed.body (agreed : Agreed left right known) {name : String} {args : List Tree} {f : Callable}
    (own : ∀ key ∈ mentions (.call name args), known key) (found : left.function? name = some f) :
    ∀ key ∈ mentions f.body, known key :=
  agreed.closed (own ⟨.function, name⟩ (by simp)) (by simp [boundTree?, found])

theorem known_arguments (own : ∀ key ∈ mentions (.call name args), known key) :
    ∀ key ∈ mentionsAll args, known key := by
  rw [mentions_call, forall_mem_cons] at own
  exact own.2

/-! ### Two runs -/

mutual

theorem hostSource_agreed (agreed : Agreed left right known) : ∀ tree : Tree, (∀ key ∈ mentions tree, known key) →
    hostSource left tree = hostSource right tree
  | .host _, _ | .literal _, _ | .argument _, _ | .blade _, _ | .operation _ _, _ | .typed _ _, _ | .unknown, _ => by
    simp only [hostSource]
  | .symbol name, own => by
    simp only [hostSource, agreed.symbol own]
  | .call name args, own => by
    have below := hostSources_agreed agreed args (known_arguments own)
    simp only [hostSource, agreed.call own, below]

theorem hostSources_agreed (agreed : Agreed left right known) : ∀ trees : List Tree,
    (∀ key ∈ mentionsAll trees, known key) → hostSources left trees = hostSources right trees
  | [], _ => by simp only [hostSources]
  | t :: ts, own => by
    rw [mentionsAll_cons, forall_mem_append] at own
    have first := hostSource_agreed agreed t own.1
    have rest := hostSources_agreed agreed ts own.2
    simp only [hostSources, first, rest]

end

mutual

theorem Visits.agreed {stack : List Key} {host : Bool} {frame : Frame} {tree : Tree} {trail : List (List Key)}
    {outcome : Except Error Tree} (agreed : Agreed left right known) :
    Visits left stack host frame tree trail outcome → (∀ key ∈ mentions tree, known key) →
    Visits right stack host frame tree trail outcome
  | .literal .. => fun _ => .literal ..
  | .blade .. => fun _ => .blade ..
  | .host .. => fun _ => .host ..
  | .argument .. => fun _ => .argument ..
  | .unknown .. => fun _ => .unknown ..
  | .typed visits => by
    intro own
    rw [mentions_typed] at own
    exact .typed (visits.agreed agreed own)
  | .operation visits => by
    intro own
    rw [mentions_operation] at own
    exact .operation (visits.agreed agreed own)
  | .reference found fresh visits => by
    intro own
    have inner := visits.agreed agreed (agreed.rhs own found)
    exact .reference (agreed.symbol own ▸ found) fresh inner
  | .selfTyped found top itself => by
    intro own
    exact .selfTyped (agreed.symbol own ▸ found) top itself
  | .referenceCycle found mem allowed => by
    intro own
    exact .referenceCycle (agreed.symbol own ▸ found) mem allowed
  | .hostName missing => by
    intro own
    exact .hostName (agreed.symbol own ▸ missing)
  | .bladeName missing parsed => by
    intro own
    exact .bladeName (agreed.symbol own ▸ missing) parsed
  | .unboundName missing parsed => by
    intro own
    exact .unboundName (agreed.symbol own ▸ missing) parsed
  | .longName missing parsed => by
    intro own
    exact .longName (agreed.symbol own ▸ missing) parsed
  | .hostCall missing read => by
    intro own
    exact .hostCall (agreed.call own ▸ missing) (hostSource_agreed agreed _ own ▸ read)
  | .hostCallError missing read => by
    intro own
    exact .hostCallError (agreed.call own ▸ missing) (hostSource_agreed agreed _ own ▸ read)
  | .unboundCall missing read => by
    intro own
    exact .unboundCall (agreed.call own ▸ missing) (hostSource_agreed agreed _ own ▸ read)
  | .wrongArity found arity => by
    intro own
    exact .wrongArity (agreed.call own ▸ found) arity
  | .functionCycle found arity mem => by
    intro own
    exact .functionCycle (agreed.call own ▸ found) arity mem
  | .argumentsError found arity fresh visits => by
    intro own
    have arguments := visits.agreed agreed (known_arguments own)
    exact .argumentsError (agreed.call own ▸ found) arity fresh arguments
  | .function found arity fresh visits visits' => by
    intro own
    have arguments := visits.agreed agreed (known_arguments own)
    have body := visits'.agreed agreed (agreed.body own found)
    exact .function (agreed.call own ▸ found) arity fresh arguments body

theorem VisitsAll.agreed {stack : List Key} {frame : Frame} {trees : List Tree} {trail : List (List Key)}
    {outcome : Except Error (List Tree)} (agreed : Agreed left right known) :
    VisitsAll left stack frame trees trail outcome → (∀ key ∈ mentionsAll trees, known key) →
    VisitsAll right stack frame trees trail outcome
  | .nil .. => fun _ => .nil ..
  | .error visits => by
    intro own
    rw [mentionsAll_cons, forall_mem_append] at own
    exact .error (visits.agreed agreed own.1)
  | .cons visits visits' => by
    intro own
    rw [mentionsAll_cons, forall_mem_append] at own
    exact .cons (visits.agreed agreed own.1) (visits'.agreed agreed own.2)

end

end

/-- Expansion depends on nothing but the names within reach. Two tables that bind every name and every call that a tree
reaches to the same tree or function, or both leave it unbound, expand it alike: to the same tree, or to the same error
with the same message. -/
theorem expand_depends_on_reached {left right : Table} {tree : Tree}
    (same : ∀ key, Reaches left tree key → binding? left key = binding? right key) :
    expand left tree = expand right tree := by
  have agreed : Agreed left right (Reaches left tree) := by
    refine ⟨fun {key} reached => same key reached, ?_⟩
    intro key inner reached bound other mem
    exact .through reached bound mem
  obtain ⟨trail, visits⟩ := visits_expand left tree
  exact visits_outcome (visits.agreed agreed fun key mem => .mentioned mem)

def sparseTable : Table where
  references := [("square", .literal 2), ("reverse", .literal 1), ("x", .typed (.symbol "x") (.named 1 "Vector"))]
  functions := [("reverse", Builtin.primitive .reverse), ("geometric_product", Builtin.primitive .geometricProduct),
    ("square", ⟨1, Builtin.times Builtin.a (Builtin.call₁ "reverse" Builtin.a)⟩)]
  warns := false

def squareKeys : List Key :=
  [⟨.function, "square"⟩, ⟨.reference, "x"⟩, ⟨.function, "geometric_product"⟩, ⟨.function, "reverse"⟩]

theorem agreed_square : Agreed squareTable sparseTable (· ∈ squareKeys) where
  same := by
    intro key mem
    simp only [squareKeys, mem_cons, not_mem_nil, or_false] at mem
    rcases mem with rfl | rfl | rfl | rfl <;> rfl
  closed := by
    have within : ∀ key ∈ squareKeys, ∀ other ∈ ((boundTree? squareTable key).map mentions).getD [],
        other ∈ squareKeys := by decide +kernel
    intro key tree mem bound other mentioned
    exact within key mem other (by simpa [bound] using mentioned)

theorem expand_square_sparse : binding? squareTable ⟨.function, "wedge"⟩ ≠ binding? sparseTable ⟨.function, "wedge"⟩ ∧
    expand squareTable (.call "square" [.symbol "x"]) = expand sparseTable (.call "square" [.symbol "x"]) ∧
    expand sparseTable (.call "square" [.symbol "x"]) = .ok squareExpanded := by
  have own : ∀ key ∈ mentions (.call "square" [.symbol "x"]), key ∈ squareKeys := by decide +kernel
  have same : expand squareTable (.call "square" [.symbol "x"]) = expand sparseTable (.call "square" [.symbol "x"]) :=
    expand_depends_on_reached fun key reached => agreed_square.same (agreed_square.known_of_reaches own reached)
  exact ⟨by rintro ⟨⟩, same, same.symm.trans rfl⟩

end Expansion

end Bladewright
