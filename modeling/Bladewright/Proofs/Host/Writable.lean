import Bladewright.Proofs.Host.Parts
import Mathlib.Algebra.Order.Group.Int
import Mathlib.Data.List.Basic

/-!
Code that can be written down. An expression can be written if it is of a kind whose members can be written as nodes
and have only members of the kind below them (`isWritable_of_closed`), whatever their height.
-/
namespace Bladewright.Host

open List

namespace Expr

variable {P : Expr → Prop}

theorem isWritable_of_closed (node : ∀ e, P e → e.isWritableNode = true) (down : IsDownward P) {e : Expr}
    (holds : P e) : e.isWritable = true := by
  rw [isWritable, all_eq_true]
  exact fun c mem => node c (down.of_mem_levels _ (forall_mem_singleton.mpr holds) c mem)

/-- Expressions of names, integers that can be written, operators, calls of names and tuples. -/
inductive IsArithmetic : Expr → Prop
  | name (id : String) : IsArithmetic (.name id)
  | int {n : Int} : Numeral.isWritable n = true → IsArithmetic (.int n)
  | unary (op : UnaryOp) {e : Expr} : IsArithmetic e → IsArithmetic (.unary op e)
  | binary (op : BinaryOp) {a b : Expr} : IsArithmetic a → IsArithmetic b → IsArithmetic (.binary op a b)
  | apply (f : String) {args : List Expr} : (∀ a ∈ args, IsArithmetic a) → IsArithmetic (.apply f args)
  | tuple {es : List Expr} : (∀ e ∈ es, IsArithmetic e) → IsArithmetic (.tuple es)

namespace IsArithmetic

variable {e : Expr}

theorem children (arithmetic : IsArithmetic e) : ∀ c ∈ e.children, IsArithmetic c := by
  cases arithmetic with
  | name id => exact forall_mem_nil _
  | int _ => exact forall_mem_nil _
  | unary op operand => exact forall_mem_singleton.mpr operand
  | binary op left right => simpa [Expr.children] using ⟨left, right⟩
  | apply f args => simpa [Expr.children, Expr.apply] using ⟨.name f, args⟩
  | tuple es => exact es

theorem isWritableNode (arithmetic : IsArithmetic e) : e.isWritableNode = true := by
  cases arithmetic with
  | int written => exact written
  | _ => rfl

theorem isWritable (arithmetic : IsArithmetic e) : e.isWritable = true :=
  isWritable_of_closed (fun _ => isWritableNode) (fun _ => children) arithmetic

end IsArithmetic

theorem isWritable_place {i : Nat} (small : i < 4096) : Numeral.isWritable (i : Int) = true := by
  have long {k : Nat} (more : 4 ≤ k) : i < Nat.pow 10 k :=
    calc i < 10 ^ 4 := Nat.lt_trans small (by decide)
      _ ≤ 10 ^ k := Nat.pow_le_pow_right (by decide) more
  exact decide_eq_true (Int.natAbs_natCast i ▸ long (by decide))

end Expr

theorem nestings_le_iff {es : List Expr} {k : Nat} : nestings es ≤ k ↔ ∀ e ∈ es, e.nesting ≤ k := by
  induction es with
  | nil => simp [nestings]
  | cons e es ih => rw [nestings, Nat.max_le, ih, forall_mem_cons]

theorem isWritable_function {name : String} {params value : Expr} (written : params.isWritable = true)
    (written' : value.isWritable = true) :
    (Stmt.function false name params none [] [.ret (some value)]).isWritable = true := by
  simp [Stmt.isWritable, Stmt.expressions, blockExpressions, written, written']

end Bladewright.Host
