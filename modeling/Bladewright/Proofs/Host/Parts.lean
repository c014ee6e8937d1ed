import Bladewright.Host.Writable

/-!
The parts of a host expression: the expression itself and what is below it at any depth.
-/
namespace Bladewright.Host

open List

namespace Expr

/-- An expression is another one, or stands somewhere below it. -/
inductive IsPart (p : Expr) : Expr → Prop
  | self : IsPart p p
  | child {e c : Expr} : c ∈ e.children → IsPart p c → IsPart p e

/-- A kind of expressions to which all belongs that is below a member. -/
def IsDownward (P : Expr → Prop) : Prop := ∀ e, P e → ∀ c ∈ e.children, P c

def Mentions (e : Expr) (id : String) : Prop := (Expr.name id).IsPart e

variable {c e p : Expr} {es level : List Expr}

theorem IsPart.of_mem_children (part : p.IsPart e) (child : c ∈ p.children) : c.IsPart e := by
  induction part with
  | self => exact .child child .self
  | child above _ ih => exact .child above ih

theorem height_le_heightList (mem : e ∈ es) : e.height ≤ heightList es := by
  induction es with
  | nil => cases mem
  | cons first rest ih =>
    rw [heightList]
    rcases mem_cons.mp mem with rfl | mem
    · exact Nat.le_max_left ..
    · exact Nat.le_trans (ih mem) (Nat.le_max_right ..)

theorem heightList_le {n : Nat} (each : ∀ e ∈ es, e.height ≤ n) : heightList es ≤ n := by
  induction es with
  | nil => exact Nat.zero_le n
  | cons first rest ih =>
    rw [forall_mem_cons] at each
    rw [heightList]
    exact Nat.max_le.mpr ⟨each.1, ih each.2⟩

theorem heightList_append (xs ys : List Expr) : heightList (xs ++ ys) = max (heightList xs) (heightList ys) := by
  induction xs with
  | nil => simp [heightList]
  | cons x xs ih => rw [cons_append, heightList, heightList, ih, Nat.max_assoc]

theorem heightList_toList (o : Option Expr) : heightList o.toList = heightOption o := by
  cases o with
  | none => rfl
  | some e => simp [heightList, heightOption]

theorem heightList_filterMap_le {pick : Expr → Option Expr} (lower : ∀ e c, pick e = some c → c.height ≤ e.height)
    (es : List Expr) : heightList (es.filterMap pick) ≤ heightList es := by
  refine heightList_le fun c mem => ?_
  obtain ⟨e, listed, picked⟩ := mem_filterMap.mp mem
  exact Nat.le_trans (lower e c picked) (height_le_heightList listed)

theorem height_default_le (p e : Expr) (given : p.default? = some e) : e.height ≤ p.height := by
  cases p with
  | param name hint default =>
    cases given
    rw [height, heightOption]
    omega
  | _ => cases given

theorem heightList_children_lt (inner : e.children ≠ []) : heightList e.children < e.height := by
  cases e with
  | literal value => exact absurd rfl inner
  | name id => exact absurd rfl inner
  | params positional regular rest keywords keywordRest =>
    have first := heightList_filterMap_le height_default_le (positional ++ regular)
    have second := heightList_filterMap_le height_default_le keywords
    rw [heightList_append] at first
    simp only [children, height, heightList_append, heightList_toList]
    omega
  | mapping entries =>
    rw [children, height, heightList_append, Nat.lt_succ_iff, Nat.max_le]
    constructor
    all_goals refine heightList_filterMap_le (fun e c given => ?_) entries
    all_goals cases e with
    | entry key value =>
      cases given
      simp only [height, heightOption]
      omega
    | _ => cases given
  | _ =>
    simp only [children, height, heightList, heightList_append, heightList_toList]
    omega

theorem height_lt_of_mem_children (child : c ∈ e.children) : c.height < e.height :=
  Nat.lt_of_le_of_lt (height_le_heightList child) (heightList_children_lt (ne_nil_of_mem child))

theorem mem_levels (part : p.IsPart e) {depth : Nat} (mem : e ∈ level)
    (deep : e.height ≤ depth) : p ∈ levels depth level := by
  induction part generalizing depth level with
  | self =>
    cases depth with
    | zero => exact mem
    | succ depth => exact mem_append_left _ mem
  | @child e c child _ ih =>
    have lower := height_lt_of_mem_children child
    obtain ⟨depth, rfl⟩ : ∃ d, depth = d + 1 := ⟨depth - 1, by omega⟩
    exact mem_append_right _ (ih (mem_flatMap.mpr ⟨e, mem, child⟩) (by omega))

theorem IsDownward.of_mem_levels {P : Expr → Prop} (down : IsDownward P) (depth : Nat)
    (each : ∀ e ∈ level, P e) : ∀ e ∈ levels depth level, P e := by
  induction depth generalizing level with
  | zero => exact each
  | succ depth ih =>
    intro e mem
    rcases mem_append.mp mem with here | deeper
    · exact each e here
    · refine ih (fun c child => ?_) e deeper
      obtain ⟨parent, listed, child⟩ := mem_flatMap.mp child
      exact down parent (each parent listed) c child

theorem mem_names {id : String} (mentions : e.Mentions id) : id ∈ e.names :=
  mem_filterMap.mpr ⟨.name id, mem_levels mentions mem_cons_self (Nat.le_refl _), rfl⟩

end Expr

theorem mem_blockExpressions {e : Expr} {body : List Stmt} :
    e ∈ blockExpressions body ↔ ∃ s ∈ body, e ∈ s.expressions := by
  induction body with
  | nil => simp [blockExpressions]
  | cons s rest ih => simp [blockExpressions, ih]

def Stmt.Holds (s : Stmt) (p : Expr) : Prop := ∃ e ∈ s.expressions, p.IsPart e

theorem Stmt.isDownward_holds (s : Stmt) : Expr.IsDownward s.Holds := by
  rintro p ⟨e, listed, part⟩ c child
  exact ⟨e, listed, part.of_mem_children child⟩

theorem Stmt.holds_of_mem {s : Stmt} : ∀ e ∈ s.expressions, s.Holds e := fun e mem => ⟨e, mem, .self⟩

end Bladewright.Host
