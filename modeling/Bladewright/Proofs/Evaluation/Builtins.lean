import Bladewright.Proofs.Evaluation.Outcomes

/-!
Calls of the built-in functions. A tree denotes terms if it has an expansion and the expansion evaluates to them
(`Denotes`).
-/
namespace Bladewright

open List Evaluation Builtin

/-- A table in which the built-in names are bound as they were, whatever other names are bound. -/
structure Table.KeepsBuiltins (table : Table) : Prop where
  function {name : String} {f : Callable} : builtin.function? name = some f → table.function? name = some f
  reference {name : String} {rhs : Tree} : builtin.reference? name = some rhs → table.reference? name = some rhs

theorem Table.keepsBuiltins_builtin : builtin.KeepsBuiltins := ⟨id, id⟩

namespace Builtin

theorem function?_primitive (op : Op) : Table.builtin.function? op.name = some (primitive op) := by
  cases op <;> rfl

variable {op : Op}

theorem primitive_unary (one : op.arity = 1) : primitive op = ⟨1, .operation op [a]⟩ := by
  rw [primitive, one]
  rfl

theorem primitive_binary (two : op.arity = 2) : primitive op = ⟨2, .operation op [a, b]⟩ := by
  rw [primitive, two]
  rfl

end Builtin

namespace Evaluation

open Expansion (Key Frame Visits VisitsAll expand)

variable {α : Type} [Add α] [Mul α] [Neg α] [OfNat α 0] [OfNat α 1]

/-- A tree has an expansion, which evaluates to the terms. -/
def Denotes (table : Table) (E : Engine α) (s : Signature) (t : Tree) (A : Terms α) : Prop :=
  ∃ expanded, expand table t = .ok expanded ∧ evaluate E s expanded = .ok A

/-- A tree has an expansion, with the bindings on `stack` being expanded already and with the arguments of `frame`,
and its evaluation ends with the outcome. -/
def Ends (table : Table) (E : Engine α) (s : Signature) (stack : List Key) (frame : Frame) (t : Tree)
    (outcome : Except (Error α) (Terms α)) : Prop :=
  ∃ expanded trail, Visits table stack false frame t trail (.ok expanded) ∧ evaluate E s expanded = outcome

section

variable {table : Table} {E : Engine α} {s : Signature} {t : Tree} {A : Terms α}

theorem Denotes.ends (denotes : Denotes table E s t A) : Ends table E s [] none t (.ok A) := by
  obtain ⟨expanded, done, evaluated⟩ := denotes
  obtain ⟨trail, visits⟩ := Expansion.visits_expand table t
  exact ⟨expanded, trail, done ▸ visits, evaluated⟩

theorem Ends.denotes (ends : Ends table E s [] none t (.ok A)) : Denotes table E s t A := by
  obtain ⟨expanded, trail, visits, evaluated⟩ := ends
  exact ⟨expanded, (Expansion.visits_outcome visits).symm, evaluated⟩

theorem Denotes.within (denotes : Denotes table E s t A) : A.Within s.dimension := by
  obtain ⟨expanded, done, evaluated⟩ := denotes
  exact within_evaluate evaluated

theorem Denotes.outcome (denotes : Denotes table E s t A) {outcome : Except (Error α) (Terms α)}
    (ends : Ends table E s [] none t outcome) : outcome = .ok A := by
  obtain ⟨expanded, done, evaluated⟩ := denotes
  obtain ⟨other, trail, visits, rfl⟩ := ends
  obtain rfl : other = expanded := Except.ok.inj ((Expansion.visits_outcome visits).trans done)
  exact evaluated

end

/-! ### The rules -/

section

variable {table : Table} {E : Engine α} {s : Signature} {stack : List Key} {frame : Frame}
  {o o₁ o₂ : Except (Error α) (Terms α)} {x y : Tree}

theorem ends_argument {index : Int} (given : Expansion.placeholder frame index = .ok x)
    (evaluated : evaluate E s x = o) : Ends table E s stack frame (.argument index) o :=
  ⟨x, [stack], given ▸ Visits.argument .., evaluated⟩

namespace Ends

variable {body : Tree} {name : String} {A : Terms α}

theorem call₁ (bound : table.function? name = some ⟨1, body⟩)
    (fresh : ⟨.function, name⟩ ∉ stack) (operand : Ends table E s stack frame x o₁)
    (inside : ∀ x', evaluate E s x' = o₁ → Ends table E s (⟨.function, name⟩ :: stack) (some [x']) body o) :
    Ends table E s stack frame (.call name [x]) o := by
  obtain ⟨x', trail, visits, evaluated⟩ := operand
  obtain ⟨expanded, trail', visits', ended⟩ := inside x' evaluated
  have args : VisitsAll table stack frame [x] _ (.ok [x']) := .cons visits (.nil ..)
  exact ⟨expanded, _, .function bound rfl fresh args visits', ended⟩

theorem call₂ (bound : table.function? name = some ⟨2, body⟩)
    (fresh : ⟨.function, name⟩ ∉ stack) (first : Ends table E s stack frame x o₁)
    (second : Ends table E s stack frame y o₂)
    (inside : ∀ x' y', evaluate E s x' = o₁ → evaluate E s y' = o₂ →
      Ends table E s (⟨.function, name⟩ :: stack) (some [x', y']) body o) :
    Ends table E s stack frame (.call name [x, y]) o := by
  obtain ⟨x', trail, visits, evaluated⟩ := first
  obtain ⟨y', trail', visits', evaluated'⟩ := second
  obtain ⟨expanded, trail'', visits'', ended⟩ := inside x' y' evaluated evaluated'
  have args : VisitsAll table stack frame [x, y] _ (.ok [x', y']) := .cons visits (.cons visits' (.nil ..))
  exact ⟨expanded, _, .function bound rfl fresh args visits'', ended⟩

variable (kept : table.KeepsBuiltins) (op : Op)
include kept

theorem unary (one : op.arity = 1) (fresh : ⟨.function, op.name⟩ ∉ stack) (operand : Ends table E s stack frame x o₁)
    (performed : ∀ x', perform E s op [(x', o₁)] = o) : Ends table E s stack frame (.call op.name [x]) o := by
  have bound := kept.function (function?_primitive op)
  rw [primitive_unary one] at bound
  refine call₁ bound fresh operand fun x' evaluated => ?_
  have args : VisitsAll table (⟨.function, op.name⟩ :: stack) (some [x']) [a] _ (.ok [x']) :=
    .cons (.argument ..) (.nil ..)
  refine ⟨.operation op [x'], _, .operation args, ?_⟩
  rw [evaluate, evaluateEach, evaluateEach, evaluated, performed]

theorem binary (two : op.arity = 2) (fresh : ⟨.function, op.name⟩ ∉ stack) (first : Ends table E s stack frame x o₁)
    (second : Ends table E s stack frame y o₂) (performed : ∀ x' y', perform E s op [(x', o₁), (y', o₂)] = o) :
    Ends table E s stack frame (.call op.name [x, y]) o := by
  have bound := kept.function (function?_primitive op)
  rw [primitive_binary two] at bound
  refine call₂ bound fresh first second fun x' y' evaluated evaluated' => ?_
  have args : VisitsAll table (⟨.function, op.name⟩ :: stack) (some [x', y']) [a, b] _
      (.ok [x', y']) := .cons (.argument ..) (.cons (.argument ..) (.nil ..))
  refine ⟨.operation op [x', y'], _, .operation args, ?_⟩
  rw [evaluate, evaluateEach, evaluateEach, evaluateEach, evaluated, evaluated', performed]

omit op in
theorem part (k : Nat) (fresh : ⟨.function, "grade"⟩ ∉ stack) (operand : Ends table E s stack frame x (.ok A)) :
    Ends table E s stack frame (part x k) (.ok (A.gradePart k)) := by
  have bound := kept.function (function?_primitive .grade)
  obtain ⟨x', trail, visits, evaluated⟩ := operand
  have args : VisitsAll table stack frame [x, .literal (.ofInt k)] _ (.ok [x', .literal (.ofInt k)]) :=
    .cons visits (.cons (.literal ..) (.nil ..))
  have inside : VisitsAll table (⟨.function, "grade"⟩ :: stack) (some [x', .literal (.ofInt k)])
      [a, b] _ (.ok [x', .literal (.ofInt k)]) := .cons (.argument ..) (.cons (.argument ..) (.nil ..))
  refine ⟨.operation .grade [x', .literal (.ofInt k)], _, .function bound rfl fresh args (.operation inside), ?_⟩
  rw [evaluate, evaluateEach, evaluateEach, evaluateEach, evaluated]
  rfl

omit op in
theorem inverse (fresh : ∀ name ∈ ["inverse", "scalar_division", "reverse", "geometric_product"],
      ⟨.function, name⟩ ∉ stack) (operand : Ends table E s stack frame x (.ok A)) :
    Ends table E s stack frame (.call "inverse" [x]) (inverse E s A) := by
  have bound := kept.function (rfl : Table.builtin.function? "inverse" = some ⟨1, _⟩)
  refine operand.call₁ bound (fresh _ (by simp)) fun x' evaluated => ?_
  have inside {name : String} (mem : name ∈ ["scalar_division", "reverse", "geometric_product"]) :
      (⟨.function, name⟩ : Key) ∉ ⟨.function, "inverse"⟩ :: stack := by
    have other := fresh name (mem_cons_of_mem _ mem)
    have differ : name ≠ "inverse" := by
      rintro rfl
      exact absurd mem (by decide)
    simp [other, differ]
  have given : Ends table E s (⟨.function, "inverse"⟩ :: stack) (some [x']) a (.ok A) :=
    ends_argument rfl evaluated
  have reversed := given.unary kept .reverse rfl (inside (by decide)) fun _ => rfl
  have product := given.binary kept .geometricProduct rfl (inside (by decide)) reversed fun _ _ => rfl
  exact reversed.binary kept .scalarDivision rfl (inside (by decide)) product fun _ _ => rfl

end Ends

end

/-! ### Calls -/

section

variable {table : Table} {E : Engine α} {s : Signature} {stack : List Key} {frame : Frame} {x y : Tree}
  {A B R V : Terms α} (kept : table.KeepsBuiltins)
include kept

theorem Denotes.binary (op : Op) (two : op.arity = 2) (first : Denotes table E s x A) (second : Denotes table E s y B)
    (performed : ∀ x' y', perform E s op [(x', .ok A), (y', .ok B)] = .ok R) :
    Denotes table E s (.call op.name [x, y]) R :=
  (first.ends.binary kept op two not_mem_nil second.ends performed).denotes

section

variable {name : String} {body : Tree}

theorem Denotes.derived₁ (bound : Table.builtin.function? name = some ⟨1, body⟩) (operand : Denotes table E s x A)
    (inside : ∀ frame, Ends table E s [⟨.function, name⟩] frame a (.ok A) →
      Ends table E s [⟨.function, name⟩] frame body (.ok R)) : Denotes table E s (.call name [x]) R :=
  (operand.ends.call₁ (kept.function bound) not_mem_nil fun _ evaluated =>
    inside _ (ends_argument rfl evaluated)).denotes

theorem Denotes.derived₂ (bound : Table.builtin.function? name = some ⟨2, body⟩) (first : Denotes table E s x A)
    (second : Denotes table E s y B)
    (inside : ∀ frame, Ends table E s [⟨.function, name⟩] frame a (.ok A) →
      Ends table E s [⟨.function, name⟩] frame b (.ok B) →
      Ends table E s [⟨.function, name⟩] frame body (.ok R)) : Denotes table E s (.call name [x, y]) R :=
  (first.ends.call₂ (kept.function bound) not_mem_nil second.ends fun _ _ evaluated evaluated' =>
    inside _ (ends_argument rfl evaluated) (ends_argument rfl evaluated')).denotes

end

theorem Denotes.geometricProduct (first : Denotes table E s x A) (second : Denotes table E s y B) :
    Denotes table E s (.call "geometric_product" [x, y]) (A.geometricProduct s B) :=
  first.binary kept .geometricProduct rfl second fun _ _ => rfl

theorem Denotes.outerProduct (first : Denotes table E s x A) (second : Denotes table E s y B) :
    Denotes table E s (.call "outer_product" [x, y]) (A.outerProduct s B) :=
  first.binary kept .outerProduct rfl second fun _ _ => rfl

theorem Denotes.add (first : Denotes table E s x A) (second : Denotes table E s y B) :
    Denotes table E s (.call "add" [x, y]) (A.add B) :=
  first.binary kept .add rfl second fun _ _ => rfl

theorem Denotes.conjugate (operand : Denotes table E s x A) :
    Denotes table E s (.call "conjugate" [x]) A.involute.reverse := by
  refine operand.derived₁ kept rfl fun _ given => ?_
  have involuted := given.unary kept .involute rfl (by decide) fun _ => rfl
  exact involuted.unary kept .reverse rfl (by decide) fun _ => rfl

theorem Denotes.exteriorAntiproduct (first : Denotes table E s x A) (second : Denotes table E s y B) :
    Denotes table E s (.call "exterior_antiproduct" [x, y])
      (((A.rightComplement s).outerProduct s (B.rightComplement s)).leftComplement s) := by
  refine first.derived₂ kept rfl second fun _ left right => ?_
  have left' := left.unary kept .rightComplement rfl (by decide) fun _ => rfl
  have right' := right.unary kept .rightComplement rfl (by decide) fun _ => rfl
  have product := left'.binary kept .outerProduct rfl (by decide) right' fun _ _ => rfl
  exact product.unary kept .leftComplement rfl (by decide) fun _ => rfl

theorem Denotes.antiscalar (operand : Denotes table E s x A) :
    Denotes table E s (.call "antiscalar" [x]) (((A.rightComplement s).gradePart 0).leftComplement s) := by
  refine operand.derived₁ kept rfl fun _ given => ?_
  have complemented := given.unary kept .rightComplement rfl (by decide) fun _ => rfl
  exact (complemented.part kept 0 (by decide)).unary kept .leftComplement rfl (by decide) fun _ => rfl

theorem denotes_pseudoscalar : Denotes table E s (.symbol "I") (Terms.pseudoscalar s) := by
  have bound := kept.reference (rfl : Table.builtin.reference? "I" = some (.call "pseudoscalar" []))
  have function := kept.function (function?_primitive .pseudoscalar)
  have body : Visits table [⟨.function, "pseudoscalar"⟩, ⟨.reference, "I"⟩] false (some [])
      (primitive .pseudoscalar).body _ (.ok (.operation .pseudoscalar [])) := .operation (.nil ..)
  have call : Visits table [⟨.reference, "I"⟩] false none (.call "pseudoscalar" []) _
      (.ok (.operation .pseudoscalar [])) := .function function rfl (by decide) (.nil ..) body
  exact Ends.denotes ⟨_, _, .reference bound not_mem_nil call, rfl⟩

theorem Denotes.inverse_eq (operand : Denotes table E s x A) (inverted : Denotes table E s (.call "inverse" [x]) V) :
    inverse E s A = .ok V :=
  inverted.outcome (operand.ends.inverse kept fun _ _ => not_mem_nil)

theorem Denotes.division (first : Denotes table E s x A) (second : Denotes table E s y B)
    (inverted : inverse E s B = .ok V) :
    Denotes table E s (.call "division" [x, y]) (A.geometricProduct s V) := by
  refine first.derived₂ kept rfl second fun _ left right => ?_
  have inverse := right.inverse kept (by decide)
  rw [inverted] at inverse
  exact left.binary kept .geometricProduct rfl (by decide) inverse fun _ _ => rfl

theorem Denotes.versorProduct (first : Denotes table E s x A) (second : Denotes table E s y B)
    (inverted : inverse E s A = .ok V) :
    Denotes table E s (.call "versor_product" [x, y]) ((A.geometricProduct s B).geometricProduct s V) := by
  refine first.derived₂ kept rfl second fun _ left right => ?_
  have inverse := left.inverse kept (by decide)
  rw [inverted] at inverse
  have product := left.binary kept .geometricProduct rfl (by decide) right fun _ _ => rfl
  exact product.binary kept .geometricProduct rfl (by decide) inverse fun _ _ => rfl

theorem Denotes.overSecond (name : String) (op : Op) (two : op.arity = 2) (bound : Table.builtin.function? name =
      some ⟨2, times (.call op.name [a, b]) (.call "inverse" [b])⟩)
    (fresh : ∀ other ∈ [op.name, "inverse", "scalar_division", "reverse", "geometric_product"], other ≠ name)
    (first : Denotes table E s x A) (second : Denotes table E s y B)
    (performed : ∀ x' y', perform E s op [(x', .ok A), (y', .ok B)] = .ok R)
    (inverted : inverse E s B = .ok V) : Denotes table E s (.call name [x, y]) (R.geometricProduct s V) := by
  refine first.derived₂ kept bound second fun _ left right => ?_
  have inside {other : String} (mem : other ∈ [op.name, "inverse", "scalar_division", "reverse", "geometric_product"]) :
      (⟨.function, other⟩ : Key) ∉ [⟨.function, name⟩] := by
    simpa using fresh other mem
  have inverse := right.inverse kept fun other mem => inside (mem_cons_of_mem _ mem)
  rw [inverted] at inverse
  have product := left.binary kept op two (inside mem_cons_self) right performed
  exact product.binary kept .geometricProduct rfl (inside (by simp [Op.name])) inverse fun _ _ => rfl

theorem Denotes.project (first : Denotes table E s x A) (second : Denotes table E s y B)
    (inverted : inverse E s B = .ok V) :
    Denotes table E s (.call "project" [x, y]) ((A.innerProduct s B).geometricProduct s V) :=
  first.overSecond kept "project" .innerProduct rfl rfl (by decide) second (fun _ _ => rfl) inverted

theorem Denotes.reject (first : Denotes table E s x A) (second : Denotes table E s y B)
    (inverted : inverse E s B = .ok V) :
    Denotes table E s (.call "reject" [x, y]) ((A.outerProduct s B).geometricProduct s V) :=
  first.overSecond kept "reject" .outerProduct rfl rfl (by decide) second (fun _ _ => rfl) inverted

theorem Denotes.sandwichProduct (first : Denotes table E s x A) (second : Denotes table E s y B) :
    Denotes table E s (.call "sandwich_product" [x, y]) ((A.geometricProduct s B).geometricProduct s A.reverse) := by
  refine first.derived₂ kept rfl second fun _ left right => ?_
  have reversed := left.unary kept .reverse rfl (by decide) fun _ => rfl
  have product := left.binary kept .geometricProduct rfl (by decide) right fun _ _ => rfl
  exact product.binary kept .geometricProduct rfl (by decide) reversed fun _ _ => rfl

end

def integerEngine : Engine ℤ where
  number v := v.toInt?.getD 0
  input _ := 0
  component _ _ := 0
  isZero n := n == 0
  normal n := n
  inverse n := n

end Evaluation

end Bladewright
