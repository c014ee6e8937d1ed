import Bladewright.Proofs.Coeff.Emit
import Bladewright.Proofs.Coeff.Renaming

/-!
Exact arithmetic where inputs need not have every component. Code has a value only if everything that it reads has a
number (`Readings.eval`).
-/
namespace Bladewright

open List Outcome

namespace Host

/-- What host code is evaluated with: the numbers of expressions that are no arithmetic and of the components of inputs,
where they have one. -/
structure Readings where
  leaf : Expr → Option ℚ
  component : Expr → Option Nat → Option ℚ

namespace Readings

/-- The value of an expression in exact arithmetic, if everything in it has one. -/
def eval (r : Readings) : Expr → Option ℚ
  | .literal (.int n) => some n
  | .literal _ => none
  | .unary .minus e => (r.eval e).map (- ·)
  | .binary .add a b => do return (← r.eval a) + (← r.eval b)
  | .binary .sub a b => do return (← r.eval a) - (← r.eval b)
  | .binary .mul a b => do return (← r.eval a) * (← r.eval b)
  | .binary .div a b => do Valuation.quotient (← r.eval a) (← r.eval b)
  | .binary .pow a b => do Valuation.power (← r.eval a) (← r.eval b)
  | .call (.name "getcomponent") [e] [] => r.component e none
  | .call (.name "getcomponent") [e, .literal (.int i)] [] => r.component e (some i.toNat)
  | e => r.leaf e

def total (r : Readings) : Valuation := ⟨r.leaf, fun e i => (r.component e i).getD 0⟩

variable {r : Readings}

theorem bind_eq_some {f : ℚ → ℚ → Option ℚ} {a b : Option ℚ} {x : ℚ}
    (done : (a >>= fun u => b >>= fun v => f u v) = some x) : ∃ u v, a = some u ∧ b = some v ∧ f u v = some x := by
  obtain ⟨u, left, done⟩ := Option.bind_eq_some_iff.mp done
  obtain ⟨v, right, done⟩ := Option.bind_eq_some_iff.mp done
  exact ⟨u, v, left, right, done⟩

theorem eval_total {e : Expr} {x : ℚ} (valued : r.eval e = some x) : r.total.eval e = some x := by
  fun_induction eval r e generalizing x with
  | case1 n => exact valued
  | case2 => cases valued
  | case3 e ih =>
    obtain ⟨y, operand, rfl⟩ := Option.map_eq_some_iff.mp valued
    exact Valuation.eval_minus (ih operand)
  | case4 a b left right | case5 a b left right | case6 a b left right | case7 a b left right
  | case8 a b left right =>
    obtain ⟨u, v, first, second, done⟩ := bind_eq_some valued
    rw [Valuation.eval, left first, right second]
    exact done
  | case9 e => exact congrArg (fun c => some (c.getD 0)) valued
  | case10 e i => exact congrArg (fun c => some (c.getD 0)) valued
  | case11 e =>
    rw [Valuation.eval]
    · exact valued
    all_goals assumption

/-- Code whose reads all have numbers where it has a value with those that are missing filled in. -/
def Settles (r : Readings) (code : Expr) : Prop := ∀ x, r.total.eval code = some x → r.eval code = some x

theorem settles_of_eval {code : Expr} {x : ℚ} (valued : r.eval code = some x) : r.Settles code := by
  intro y found
  rw [valued, ← eval_total valued, found]

theorem settles_literal (l : Literal) : r.Settles (.literal l) := by
  intro x found
  cases l <;> exact found

theorem settles_minus {a : Expr} (operand : r.Settles a) : r.Settles (.unary .minus a) := by
  intro x found
  obtain ⟨y, valued, rfl⟩ := Option.map_eq_some_iff.mp found
  rw [eval, operand y valued]
  rfl

theorem settles_binary (op : BinaryOp) {a b : Expr} (left : r.Settles a) (right : r.Settles b) :
    r.Settles (.binary op a b) := by
  intro x found
  cases op
  case add | sub | mul | div | pow =>
    obtain ⟨u, v, first, second, done⟩ := bind_eq_some found
    rw [eval, left u first, right v second]
    exact done
  all_goals exact found

end Readings

/-- Whether the host has a number for an atom. -/
def Readings.Gives (r : Readings) : Coeff → Prop
  | .sym s => ∃ e x, Expr.read s = .ok e ∧ r.eval e = some x
  | .app "getcomponent" [.sym s] => ∃ e x, Expr.read s = .ok e ∧ r.component e none = some x
  | .app "getcomponent" [.sym s, .num c] => ∃ (i : Nat) (e : Expr) (x : ℚ),
      c = .ofInt i ∧ Expr.read s = .ok e ∧ r.component e (some i) = some x
  | _ => False

end Host

namespace Coeff

open Host

/-! ### What the code of an expression reads -/

section

variable {P : Coeff → Prop}

theorem over_splitPower {b e : Coeff} (base : Over P b) (exponent : Over P e) :
    (∀ f ∈ (splitPower b e).1, Over P f) ∧ ∀ f ∈ (splitPower b e).2, Over P f := by
  have power {b e : Coeff} (base : Over P b) (exponent : Over P e) :
      ∀ f ∈ (if (raise b e).isOne then [] else [raise b e]), Over P f := by
    split
    · simp
    · simpa using over_raise base exponent
  have size : Over P (if numberDenominator b = 1 then b else mul (ofInt (numberDenominator b)) b) :=
    over_ite base (over_mul (.num _) base)
  have sign {p : Prop} [Decidable p] : Over P (if p then neg e else e) := over_ite (over_neg exponent) exponent
  have swapped {p : Prop} [Decidable p] {as bs : List Coeff} (left : ∀ f ∈ as, Over P f) (right : ∀ f ∈ bs, Over P f) :
      (∀ f ∈ (if p then (bs, as) else (as, bs)).1, Over P f) ∧ ∀ f ∈ (if p then (bs, as) else (as, bs)).2, Over P f := by
    split
    · exact ⟨right, left⟩
    · exact ⟨left, right⟩
  unfold splitPower
  exact swapped (power size sign) (power (.num _) sign)

theorem over_fractionParts {e : Coeff} (made : Over P e) :
    (∀ f ∈ e.fractionParts.1, Over P f) ∧ ∀ f ∈ e.fractionParts.2, Over P f := by
  have single : (∀ f ∈ [e], Over P f) ∧ ∀ f ∈ ([] : List Coeff), Over P f := by simp [made]
  unfold fractionParts
  split
  · split
    · exact single
    · refine ⟨?_, by simp⟩
      split <;> simp
  · obtain ⟨base, exponent⟩ := over_baseExponent made
    dsimp only
    split
    · refine ⟨by simp, ?_⟩
      simpa using over_ite base (over_raise base (over_neg exponent))
    split
    · exact single
    split
    · exact over_splitPower base exponent
    · exact single
  · exact single

theorem over_fraction {e : Coeff} (made : Over P e) : Over P e.fraction.1 ∧ Over P e.fraction.2 := by
  have parts : ∀ part ∈ e.multiplicands.map fractionParts, (∀ f ∈ part.1, Over P f) ∧ ∀ f ∈ part.2, Over P f :=
    forall_mem_map.mpr fun f mem => over_fractionParts (over_multiplicands made f mem)
  refine ⟨over_mulAll fun f mem => ?_, over_mulAll fun f mem => ?_⟩
  · obtain ⟨part, listed, mem⟩ := mem_flatMap.mp mem
    exact (parts part listed).1 f mem
  · obtain ⟨part, listed, mem⟩ := mem_flatMap.mp mem
    exact (parts part listed).2 f mem

end

/-- Properties of code that arithmetic keeps. -/
structure KeptByArithmetic (Q : Expr → Prop) : Prop where
  literal (l : Literal) : Q (.literal l)
  minus {a : Expr} : Q a → Q (.unary .minus a)
  binary (op : BinaryOp) {a b : Expr} : Q a → Q b → Q (.binary op a b)

section

variable {P : Coeff → Prop} {Q : Expr → Prop} (kept : KeptByArithmetic Q)
include kept

theorem kept_emitNumber {c : Scalar} {code : Expr} (emitted : emitNumber c = .ok code) : Q code := by
  have signed (negative : Bool) (l : Literal) : Q (signedConstant negative l) := by
    unfold signedConstant
    split
    · exact kept.minus (kept.literal l)
    · exact kept.literal l
  unfold emitNumber at emitted
  split at emitted
  · split at emitted
    · cases emitted
      exact signed _ _
    · have ratio (a b : ℤ) : Q (.binary .div (.int a) (.int b)) := kept.binary .div (kept.literal _) (kept.literal _)
      cases emitted
      split
      · exact kept.minus (ratio _ _)
      · exact ratio _ _
  · cases emitted
    exact signed _ _
  · cases emitted

variable {code : Coeff → Code} (each : ∀ e c, Over P e → code e = .ok c → Q c)
include each

theorem kept_joinSum {terms : List Coeff} (made : ∀ t ∈ terms, Over P t) {c : Expr}
    (emitted : joinSum code terms = .ok c) : Q c := by
  have folded {terms : List Coeff} (made : ∀ t ∈ terms, Over P t) {start : Code} (first : ∀ c, start = .ok c → Q c) :
      ∀ c, terms.foldl (fun left term => do
        let left ← left
        if term.splitNumber.1.isNegative then return .binary .sub left (← code (neg term))
        return .binary .add left (← code term)) start = .ok c → Q c := by
    induction terms generalizing start with
    | nil => exact first
    | cons t terms ih =>
      rw [forall_mem_cons] at made
      refine ih made.2 fun c joined => ?_
      obtain ⟨left, started, joined⟩ := of_bind joined
      split at joined
      · obtain ⟨right, found, ⟨⟩⟩ := of_bind joined
        exact kept.binary .sub (first left started) (each _ _ (over_neg made.1) found)
      · obtain ⟨right, found, ⟨⟩⟩ := of_bind joined
        exact kept.binary .add (first left started) (each _ _ made.1 found)
  cases terms with
  | nil =>
    cases emitted
    exact kept.literal _
  | cons t terms =>
    rw [forall_mem_cons] at made
    exact folded made.2 (each t · made.1) c emitted

theorem kept_joinProduct {factors : List Coeff} (made : ∀ f ∈ factors, Over P f) {c : Expr}
    (emitted : joinProduct (factors.map code) = .ok c) : Q c := by
  have folded {factors : List Coeff} (made : ∀ f ∈ factors, Over P f) {start : Code} (first : ∀ c, start = .ok c → Q c) :
      ∀ c, (factors.map code).foldl (fun left right => do
        let left ← left
        return .binary .mul left (← right)) start = .ok c → Q c := by
    induction factors generalizing start with
    | nil => exact first
    | cons f factors ih =>
      rw [forall_mem_cons] at made
      refine ih made.2 fun c joined => ?_
      obtain ⟨left, started, joined⟩ := of_bind joined
      obtain ⟨right, found, ⟨⟩⟩ := of_bind joined
      exact kept.binary .mul (first left started) (each _ _ made.1 found)
  cases factors with
  | nil =>
    cases emitted
    exact kept.literal _
  | cons f factors =>
    rw [forall_mem_cons] at made
    exact folded made.2 (each f · made.1) c emitted

theorem kept_emitProduct {q : Scalar} {fs : List Coeff} (made : ∀ f ∈ fs, Over P f) {c : Expr}
    (emitted : emitProduct code q fs = .ok c) : Q c := by
  have whole : Over P (prod q fs) := .prod q made
  unfold emitProduct at emitted
  dsimp only at emitted
  split at emitted
  · obtain ⟨size, found, ⟨⟩⟩ := of_bind emitted
    exact kept.minus (each _ _ (over_neg whole) found)
  split at emitted
  · refine kept_joinProduct kept each (fun f mem => ?_) emitted
    exact over_multiplicands whole f ((orderedFactors_perm _).mem_iff.mp mem)
  · obtain ⟨above, found, emitted⟩ := of_bind emitted
    obtain ⟨below, found', ⟨⟩⟩ := of_bind emitted
    exact kept.binary .div (each _ _ (over_fraction whole).1 found) (each _ _ (over_fraction whole).2 found')

theorem kept_emitPower {e : Coeff} (made : Over P e) {c : Expr} (emitted : emitPower code e = .ok c) : Q c := by
  obtain ⟨base, exponent⟩ := over_baseExponent made
  have power {c : Expr} (emitted : (do
      let left ← code e.baseExponent.1
      return Expr.binary .pow left (← code e.baseExponent.2) : Code) = .ok c) : Q c := by
    obtain ⟨left, found, emitted⟩ := of_bind emitted
    obtain ⟨right, found', ⟨⟩⟩ := of_bind emitted
    exact kept.binary .pow (each _ _ base found) (each _ _ exponent found')
  unfold emitPower at emitted
  dsimp only at emitted
  split at emitted
  · split at emitted
    · obtain ⟨below, found, ⟨⟩⟩ := of_bind emitted
      exact kept.binary .div (kept.literal _) (each _ _ (over_raise made (.num _)) found)
    · exact power emitted
  · exact power emitted

end

theorem kept_emitDeep {P : Coeff → Prop} {Q : Expr → Prop} (kept : KeptByArithmetic Q)
    (names : ∀ depth s c, P (sym s) → emitDeep depth (sym s) = .ok c → Q c)
    (reads : ∀ depth f args c, P (app f args) → emitDeep depth (app f args) = .ok c → Q c) (depth : Nat) :
    ∀ e c, Over P e → emitDeep depth e = .ok c → Q c := by
  induction depth with
  | zero =>
    intro e c _ emitted
    cases emitted
  | succ depth each =>
    intro e c made emitted
    cases made with
    | num c => exact kept_emitNumber kept emitted
    | const c => cases emitted
    | sym own => exact names _ _ _ own emitted
    | app own => exact reads _ _ _ _ own emitted
    | @pow b e base exponent =>
      by_cases euler : b = const .euler
      · subst euler
        cases emitted
      · simp only [emitDeep] at emitted
        exact kept_emitPower kept each (.pow base exponent) emitted
    | prod c factors => exact kept_emitProduct kept each factors emitted
    | @sum c ts terms =>
      refine kept_joinSum kept each (fun t mem => ?_) emitted
      exact over_summands (.sum c terms) t ((orderedTerms_perm _).mem_iff.mp mem)

variable {r : Readings}

theorem keptByArithmetic_settles : KeptByArithmetic r.Settles :=
  ⟨Readings.settles_literal, Readings.settles_minus, Readings.settles_binary⟩

theorem emitDeep_app {depth : Nat} {f : String} {args : List Coeff} {code : Expr}
    (emitted : emitDeep depth (app f args) = .ok code) :
    ∃ below es, args.mapM (emitDeep below) = .ok es ∧ code = .apply "getcomponent" es := by
  cases depth with
  | zero => cases emitted
  | succ depth =>
    simp only [emitDeep] at emitted
    split at emitted
    · obtain ⟨es, found, ⟨⟩⟩ := of_bind emitted
      exact ⟨depth, es, found, rfl⟩
    · cases emitted

theorem settles_atom (depth : Nat) (a : Coeff) (code : Expr) (given : r.Gives a) (emitted : emitDeep depth a = .ok code) :
    r.Settles code := by
  unfold Readings.Gives at given
  split at given
  · obtain ⟨e, x, read, valued⟩ := given
    cases read.symm.trans (emitDeep_sym emitted)
    exact Readings.settles_of_eval valued
  · obtain ⟨e, x, read, valued⟩ := given
    obtain ⟨below, es, codes, rfl⟩ := emitDeep_app emitted
    obtain _ | ⟨found, ⟨⟩⟩ := of_mapM codes
    cases read.symm.trans (emitDeep_sym found)
    exact Readings.settles_of_eval valued
  · obtain ⟨i, e, x, rfl, read, valued⟩ := given
    obtain ⟨below, es, codes, rfl⟩ := emitDeep_app emitted
    obtain _ | ⟨found, _ | ⟨number, ⟨⟩⟩⟩ := of_mapM codes
    cases read.symm.trans (emitDeep_sym found)
    rw [emitDeep_natural number]
    exact Readings.settles_of_eval valued
  · cases given

/-- An expression that has a value where the host has numbers for its atoms. -/
structure HasValue (r : Readings) (e : Coeff) (x : ℚ) : Prop where
  given : Over r.Gives e
  means : Means r.total.inputs.reading e x

theorem HasValue.eval_emit {e : Coeff} {x : ℚ} (valued : HasValue r e x) {code : Expr} (emitted : e.emit = .ok code) :
    r.eval code = some x := by
  refine kept_emitDeep keptByArithmetic_settles (fun depth s => settles_atom depth (sym s))
    (fun depth f args => settles_atom depth (app f args)) _ e code valued.given emitted x ?_
  exact (Coeff.eval_emit valued.means.defined emitted).trans (congrArg some valued.means.value_eq)

/-- The host has the same numbers for an input under its old and under its new name. -/
def Carries (f : String → Option String) (r r' : Readings) (s : String) : Prop :=
  ∀ e, Expr.read s = .ok e → ∃ e', Expr.read (newName f s) = .ok e' ∧
    (∀ x, r.eval e = some x → r'.eval e' = some x) ∧
    ∀ i x, r.component e i = some x → r'.component e' i = some x

section

variable {f : String → Option String} {r' : Readings}

theorem means_sym_iff {s : String} {e : Expr} {y : ℚ} (read : Expr.read s = .ok e) (valued : r.eval e = some y) {x : ℚ} :
    Means r.total.inputs.reading (sym s) x ↔ y = x := by
  have number : r.total.inputs.reading.scalar s = some y := by
    simp only [Valuation.inputs, read]
    exact Readings.eval_total valued
  refine ⟨fun means => ?_, ?_⟩
  · have same := means.value_eq
    rwa [value, number] at same
  · rintro rfl
    exact ⟨.sym (by rw [number]; rfl), by rw [value, number]; rfl⟩

theorem component_total {s : String} {e : Expr} {i : Option Nat} {y : ℚ} (read : Expr.read s = .ok e)
    (valued : r.component e i = some y) : r.total.inputs.reading.component s i = y := by
  simp only [Valuation.inputs, read]
  exact congrArg (·.getD 0) valued

theorem gives_rename {a : Coeff} (given : r.Gives a) (carried : ∀ s ∈ a.symbols, Carries f r r' s) :
    Over r'.Gives (rename f a) ∧
      ∀ x, Means r.total.inputs.reading a x → Means r'.total.inputs.reading (rename f a) x := by
  unfold Readings.Gives at given
  split at given
  · rename_i s
    obtain ⟨e, y, read, valued⟩ := given
    obtain ⟨e', read', same, -⟩ := carried s (by simp [symbols]) e read
    rw [rename_sym]
    refine ⟨.sym ⟨e', y, read', same y valued⟩, fun x means => ?_⟩
    rw [means_sym_iff read' (same y valued)]
    exact (means_sym_iff read valued).mp means
  · rename_i s
    obtain ⟨e, y, read, valued⟩ := given
    obtain ⟨e', read', -, same⟩ := carried s (by simp [symbols]) e read
    have found := same none y valued
    rw [rename_app, map_singleton, rename_sym]
    refine ⟨.app ⟨e', y, read', found⟩, fun x means => ⟨.only _, ?_⟩⟩
    rw [← means.value_eq]
    exact (component_total read' found).trans (component_total read valued).symm
  · rename_i s c
    obtain ⟨i, e, y, rfl, read, valued⟩ := given
    obtain ⟨e', read', -, same⟩ := carried s (by simp [symbols]) e read
    have found := same (some i) y valued
    rw [rename_app, map_cons, map_singleton, rename_sym]
    refine ⟨.app ⟨i, e', y, rfl, read', found⟩, fun x means => ⟨.component _ i, ?_⟩⟩
    rw [← means.value_eq]
    exact (component_total read' found).trans (component_total read valued).symm
  · cases given

theorem HasValue.rename {e : Coeff} {x : ℚ} (valued : HasValue r e x) (carried : ∀ s ∈ e.symbols, Carries f r r' s) :
    HasValue r' (rename f e) x := by
  have atoms := valued.given.and (over_names.mpr carried)
  refine ⟨over_rename atoms fun a own => (gives_rename own.1 own.2).1, ?_⟩
  rw [← valued.means.value_eq]
  exact means_rename valued.means.defined (atoms.imp fun a own => (gives_rename own.1 own.2).2)

end

end Coeff

end Bladewright
