import Bladewright.Proofs.Algebra.Within
import Bladewright.Proofs.Blade.Enumeration
import Bladewright.Proofs.Expansion.Expanded

/-!
What evaluation can end with. Terms are always over the basis vectors of the signature, since literals, blades and
typed inputs are and every operation keeps to them.
-/
namespace Bladewright

open List

namespace Tree

/-- Whether a node is of a known kind and, as an operation, has as many operands as it takes. -/
def isCounted : Tree → Bool
  | operation op args => args.length == op.arity
  | unknown => false
  | _ => true

/-- A tree of known nodes, in which operations have as many operands as they take. -/
def IsCounted (t : Tree) : Prop := t.Every (isCounted ·)

end Tree

namespace Evaluation

open Outcome (Meets)
open Terms (Within within_empty within_single within_pseudoscalar)

variable {α : Type} {Q : Error α → Prop}

/-- Whether an error can only be met on a tree that is no outcome of an expansion. -/
def Error.isInternal : Error α → Bool
  | wrongOperands .. | unexpanded _ | unknownNode _ => true
  | missingBasis .. | negativeBasis | missingGrades .. | notScalar .. | zeroDivisor | notInteger .. => false

/-- Errors of a tree are as asked: because any error is, or because evaluation knows all nodes of the tree. -/
def Allows (Q : Error α → Prop) (t : Tree) : Prop := (∀ e, Q e) ∨ t.IsExpanded ∧ t.IsCounted

theorem Allows.typed {operand : Tree} {spec : GradeSpec} (allows : Allows Q (.typed operand spec)) : Allows Q operand :=
  allows.imp_right fun known => ⟨(Tree.every_typed.mp known.1).2, (Tree.every_typed.mp known.2).2⟩

variable {op : Op} {blade n : Nat} {A : Terms α}

theorem Allows.operation {args : List Tree} (allows : Allows Q (.operation op args)) :
    ∀ t ∈ args, Allows Q t := fun t mem =>
  allows.imp_right fun known =>
    ⟨(Tree.every_operation.mp known.1).2 t mem, (Tree.every_operation.mp known.2).2 t mem⟩

/-! ### The parts of evaluation -/

theorem contract_lt (s : Signature) {sign : Int} {factors : List Nat} (small : blade < 2 ^ n)
    (exist : ∀ i ∈ factors, i < n) : (Blade.contract s blade sign factors).1 < 2 ^ n := by
  induction factors generalizing blade sign with
  | nil => exact small
  | cons i rest ih =>
    rw [forall_mem_cons] at exist
    have next : blade ^^^ 2 ^ i < 2 ^ n := Nat.xor_lt_two_pow small (Nat.pow_lt_pow_right (by omega) exist.1)
    simp only [Blade.contract]
    split
    · exact next
    · exact ih next exist.2

theorem mem_bladesOf {grades : List Int} (mem : blade ∈ bladesOf n grades) : blade < 2 ^ n := by
  obtain ⟨g, -, listed⟩ := mem_flatMap.mp mem
  exact (Blade.mem_ofGrade.mp listed).1

theorem within_inputTerms (engine : Engine α) (n : Nat) (source : String) (grades : List Int) :
    Within n (inputTerms engine n source grades) := by
  refine Within.ofList fun entry mem => ?_
  exact mem_bladesOf (of_mem_zip mem).1

theorem within_selectGrades (within : Within n A) (grades : List Int) : Within n (selectGrades A grades) := by
  refine Within.ofList fun entry mem => ?_
  obtain ⟨g, -, selected⟩ := mem_flatMap.mp mem
  exact within.entries entry (mem_filter.mp selected).1

theorem within_partOf (within : Within n A) (k : Int) : Within n (partOf A k) := by
  cases k with
  | ofNat k => exact within.filter _
  | negSucc k => exact within_empty

section

variable (s : Signature) (ordinary : ∀ e : Error α, e.isInternal = false → Q e)
include ordinary

theorem meets_checkedGrades (spec : GradeSpec) : Meets Q (fun _ => True) (checkedGrades s spec) := by
  unfold checkedGrades
  simp only
  split
  · trivial
  · exact ordinary _ rfl

theorem meets_integerOf (slot : Slot) (tree : Tree) : Meets Q (fun _ => True) (integerOf slot tree) := by
  cases tree with
  | literal value =>
    cases found : value.toInt? with
    | none =>
      simp only [integerOf, found]
      exact ordinary _ rfl
    | some k =>
      simp only [integerOf, found]
      trivial
  | _ => exact ordinary _ rfl

theorem meets_bladeTerms (factors : List Int) (number : Scalar → α) :
    Meets Q (Within s.dimension) (bladeTerms s factors number) := by
  unfold bladeTerms
  split
  · exact ordinary _ rfl
  · rename_i exist
    split
    · exact ordinary _ rfl
    · rename_i natural
      simp only
      split
      · exact within_empty
      · refine within_single (contract_lt s (Nat.two_pow_pos _) fun i mem => ?_) _
        obtain ⟨j, factor, rfl⟩ := mem_map.mp mem
        have above := List.find?_eq_none.mp exist j factor
        have below : 0 ≤ j := by
          by_contra negative
          exact natural (any_eq_true.mpr ⟨j, factor, by simpa using negative⟩)
        simp only [decide_eq_true_eq] at above
        omega

theorem meets_divide [Mul α] [OfNat α 0] (engine : Engine α) (within : Within n A)
    (divisor : Terms α) : Meets Q (Within n) (divide engine s A divisor) := by
  unfold divide
  split
  · exact ordinary _ rfl
  · simp only
    split
    · exact ordinary _ rfl
    · exact within.map

end

variable [Add α] [Mul α] [Neg α] [OfNat α 1]

theorem within_naturalPower (s : Signature) (within : Within s.dimension A) (k : Nat) :
    Within s.dimension (naturalPower s A k) := by
  induction k with
  | zero => exact within_single (Nat.two_pow_pos _) 1
  | succ k ih => exact ih.multiply s _ within

variable [OfNat α 0] (engine : Engine α) (s : Signature)

section

variable (ordinary : ∀ e : Error α, e.isInternal = false → Q e)
include ordinary

theorem meets_integerPower (within : Within s.dimension A) (k : Int) :
    Meets Q (Within s.dimension) (integerPower engine s A k) := by
  cases k with
  | ofNat k => exact within_naturalPower s within k
  | negSucc k =>
    refine (meets_divide s ordinary engine within.map _).bind fun inverse inverted => ?_
    exact within_naturalPower s inverted (k + 1)

theorem meets_perform {args : List (Tree × Except (Error α) (Terms α))}
    (count : args.length ≠ op.arity → Q (.wrongOperands op args.length))
    (operands : ∀ x ∈ args, Meets Q (Within s.dimension) x.2) :
    Meets Q (Within s.dimension) (perform engine s op args) := by
  -- operations are told apart by the number of operands first, so that each wrong number is one case
  match args, operands with
  | [], _ =>
    cases op
    case pseudoscalar => exact within_pseudoscalar s
    all_goals exact count (by simp [Op.arity])
  | [x], operands =>
    have first : Meets Q (Within s.dimension) x.2 := operands x (by simp)
    cases op
    case negate => exact first.bind fun _ a => a.map
    case reverse => exact first.bind fun _ a => a.map
    case involute => exact first.bind fun _ a => a.map
    case dual => exact first.bind fun _ a => a.multiply s _ (within_pseudoscalar s)
    case rightComplement => exact first.bind fun _ a => a.complement s.fullBlade_lt
    case leftComplement => exact first.bind fun _ a => a.complement s.fullBlade_lt
    all_goals exact count (by simp [Op.arity])
  | [x, y], operands =>
    have first : Meets Q (Within s.dimension) x.2 := operands x (by simp)
    have second : Meets Q (Within s.dimension) y.2 := operands y (by simp)
    have product (select : Terms.Selection) : Meets Q (Within s.dimension)
        (do return (← x.2).multiply s select (← y.2)) :=
      first.bind fun _ a => second.bind fun _ b => a.multiply s select b
    cases op
    case add => exact first.bind fun _ a => second.bind fun _ b => a.add b
    case geometricProduct => exact product .all
    case outerProduct => exact first.bind fun _ a => second.bind fun _ b => a.outerProduct s b
    case innerProduct => exact product .inner
    case leftContraction => exact product .left
    case rightContraction => exact product .right
    case scalarProduct => exact product .scalar
    case grade => exact first.bind fun _ a => (meets_integerOf ordinary _ y.1).bind fun k _ => within_partOf a k
    case scalarDivision =>
      exact first.bind fun _ a => second.bind fun divisor _ => meets_divide s ordinary engine a divisor
    case power =>
      exact (meets_integerOf ordinary _ y.1).bind fun k _ => first.bind fun _ a =>
        meets_integerPower engine s ordinary a k
    all_goals exact count (by simp [Op.arity])
  | _ :: _ :: _ :: _, _ =>
    cases op
    all_goals exact count (by simp [Op.arity])

end

/-! ### The whole tree -/

mutual

theorem meets_evaluate (ordinary : ∀ e : Error α, e.isInternal = false → Q e) : ∀ t : Tree, Allows Q t →
    Meets Q (Within s.dimension) (evaluate engine s t)
  | .literal _, _ | .host _, _ => within_single (Nat.two_pow_pos _) _
  | .blade factors, _ => meets_bladeTerms s ordinary factors engine.number
  | .typed operand spec, allows => by
    by_cases input : ∃ source, operand = .host source
    · obtain ⟨source, rfl⟩ := input
      exact (meets_checkedGrades s ordinary spec).bind fun grades _ =>
        within_inputTerms engine s.dimension source grades
    · rw [evaluate_typed engine s fun source same => input ⟨source, same⟩]
      exact (meets_checkedGrades s ordinary spec).bind fun grades _ =>
        (meets_evaluate ordinary operand allows.typed).bind fun _ within => within_selectGrades within grades
  | .operation op args, allows => by
    obtain ⟨length, each⟩ := meets_evaluateEach ordinary args allows.operation
    refine meets_perform engine s ordinary (fun wrong => ?_) each
    rcases allows with any | ⟨-, counted⟩
    · exact any _
    · rw [length] at wrong
      exact absurd (by simpa [Tree.isCounted] using (Tree.every_operation.mp counted).1) wrong
  | .symbol _, allows | .argument _, allows | .unknown, allows => by
    rcases allows with any | ⟨expanded, -⟩
    · exact any _
    · cases (Tree.every_of_leaf rfl).mp expanded
  | .call _ _, allows => by
    rcases allows with any | ⟨expanded, -⟩
    · exact any _
    · cases (Tree.every_call.mp expanded).1

theorem meets_evaluateEach (ordinary : ∀ e : Error α, e.isInternal = false → Q e) : ∀ ts : List Tree,
    (∀ t ∈ ts, Allows Q t) → (evaluateEach engine s ts).length = ts.length ∧
    ∀ x ∈ evaluateEach engine s ts, Meets Q (Within s.dimension) x.2
  | [], _ => ⟨rfl, by simp [evaluateEach]⟩
  | t :: ts, allows => by
    rw [forall_mem_cons] at allows
    obtain ⟨length, each⟩ := meets_evaluateEach ordinary ts allows.2
    rw [evaluateEach, length_cons, length_cons, length, forall_mem_cons]
    exact ⟨rfl, meets_evaluate ordinary t allows.1, each⟩

end

variable {engine : Engine α} {s : Signature} {t : Tree}

theorem within_evaluate {A : Terms α} (evaluated : evaluate engine s t = .ok A) : A.Within s.dimension :=
  (meets_evaluate (Q := fun _ => True) engine s (fun _ _ => trivial) t (.inl fun _ => trivial)).of_ok evaluated

theorem evaluate_error_of_known {e : Error α} (expanded : t.IsExpanded) (counted : t.IsCounted)
    (failed : evaluate engine s t = .error e) : e.isInternal = false :=
  (meets_evaluate (Q := fun e => e.isInternal = false) engine s (fun _ ordinary => ordinary) t
    (.inr ⟨expanded, counted⟩)).of_error failed

end Evaluation

end Bladewright
