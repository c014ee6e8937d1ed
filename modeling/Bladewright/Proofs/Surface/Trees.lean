import Bladewright.Proofs.Expansion.Expanded
import Bladewright.Proofs.Host.Parts
import Bladewright.Surface.Program

/-!
The trees that reading yields: literals, host expressions, names, placeholders, typed operands and calls, never
operations. They are scoped: a parameter occurs as a placeholder only, neither as a name nor inside a host expression.
-/
namespace Bladewright

open List Host Outcome

namespace Tree

/-- A node of a kind that reading yields, within a function of some parameters. Host expressions are taken from the
listed ones. -/
def IsScopedNode (params : List String) (Listed : Expr → Prop) : Tree → Prop
  | literal _ | typed .. | call .. => True
  | symbol name => name ∉ params
  | argument index => 0 ≤ index ∧ index < params.length
  | host text => ∃ e, Listed e ∧ text = e.source ∧ ∀ name ∈ params, ¬e.Mentions name
  | blade _ | operation .. | unknown => False

/-- A tree of nodes that reading yields, within a function of some parameters. -/
def IsScoped (params : List String) (Listed : Expr → Prop) (t : Tree) : Prop := t.Every (IsScopedNode params Listed)

def isSurfaceNode : Tree → Bool
  | literal _ | host _ | symbol _ | argument _ | typed .. | call .. => true
  | blade _ | operation .. | unknown => false

def IsSurface (t : Tree) : Prop := t.Every (isSurfaceNode ·)

namespace IsScoped

variable {params : List String} {Listed : Expr → Prop}

theorem typed {operand : Tree} (fits : operand.IsScoped params Listed) (spec : GradeSpec) :
    (Tree.typed operand spec).IsScoped params Listed := every_typed.mpr ⟨trivial, fits⟩

theorem call (name : String) {args : List Tree} (fits : ∀ t ∈ args, t.IsScoped params Listed) :
    (Tree.call name args).IsScoped params Listed := every_call.mpr ⟨trivial, fits⟩

theorem literal (value : Scalar) : (Tree.literal value).IsScoped params Listed := (every_of_leaf rfl).mpr trivial

theorem symbol {name : String} (free : name ∉ params) : (Tree.symbol name).IsScoped params Listed :=
  (every_of_leaf rfl).mpr free

theorem isSurface {t : Tree} (fits : t.IsScoped params Listed) : t.IsSurface := by
  intro node below
  have known := fits node below
  cases node with
  | blade _ => exact known.elim
  | operation _ _ => exact known.elim
  | unknown => exact known.elim
  | _ => rfl

end IsScoped

end Tree

/-- A binding whose tree is scoped: a reference has no parameters, and a function has as many arguments as there are
parameters. -/
def Binding.IsScoped (params : List String) (Listed : Expr → Prop) : Binding → Prop
  | reference rhs => rhs.IsScoped [] Listed
  | function f => f.arity = params.length ∧ f.body.IsScoped params Listed

theorem Binding.IsScoped.isSurface {params : List String} {Listed : Expr → Prop} {binding : Binding}
    (fits : binding.IsScoped params Listed) : binding.tree.IsSurface := by
  cases binding with
  | reference rhs => exact Tree.IsScoped.isSurface fits
  | function f => exact fits.2.isSurface

namespace Surface

open Bladewright.Tree

/-- The names of all parameters that a parameter list declares, of whatever kind they are. -/
def declared : Expr → List String
  | .params positional regular rest keywords keywordRest =>
    (positional ++ regular ++ rest.toList ++ keywords ++ keywordRest.toList).map paramName
  | _ => []

/-- The parameters of a function statement: a `def`, a `lambda`, or a `lambda` with a name. -/
def parameters : Stmt → List String
  | .function _ _ params _ _ _ | .assign _ (.lambda params _) | .expression (.lambda params _) => declared params
  | _ => []

theorem eq_declared_of_readParams {owner : Owner} {params : Expr} {names : List String}
    (done : readParams owner params = .ok names) : names = declared params := by
  cases params with
  | params positional regular rest keywords keywordRest =>
    dsimp only [readParams] at done
    split at done
    · cases done
    split at done
    · cases done
    split at done
    · cases done
    · cases done
      rename_i plain _ _ _
      simp only [Bool.or_eq_true, Bool.not_eq_true', isEmpty_eq_false_iff, Option.isSome_iff_ne_none, not_or,
        not_not] at plain
      obtain ⟨⟨⟨rfl, rfl⟩, rfl⟩, rfl⟩ := plain
      simp [declared]
  | _ =>
    cases done
    rfl

variable {scope : Scope} {e : Expr}

theorem Scope.param?_lt {name : String} {i : Nat} (found : scope.param? name = some i) : i < scope.params.length := by
  obtain ⟨k, first, rfl⟩ := Option.map_eq_some_iff.mp found
  obtain ⟨inside, -⟩ := List.idxOf?_eq_some_iff.mp first
  rw [length_reverse] at inside
  omega

theorem Scope.notMem_of_param?_eq_none {name : String} (missing : scope.param? name = none) : name ∉ scope.params := by
  rw [Scope.param?, Option.map_eq_none_iff, List.idxOf?_eq_none_iff] at missing
  rwa [mem_reverse] at missing

variable {Listed : Expr → Prop}

/-- The locals stand for scoped trees. -/
def Scope.IsScoped (Listed : Expr → Prop) (scope : Scope) : Prop :=
  ∀ entry ∈ scope.locals, entry.2.IsScoped scope.params Listed

theorem Scope.IsScoped.resolve (fits : scope.IsScoped Listed) (name : String) :
    (scope.resolve name).IsScoped scope.params Listed := by
  unfold Scope.resolve
  split
  case h_1 i found =>
    have inside := Scope.param?_lt found
    exact (every_of_leaf rfl).mpr ⟨Int.natCast_nonneg i, Int.ofNat_lt.mpr inside⟩
  case h_2 missing =>
    cases found : scope.locals.lookup name with
    | none => exact .symbol (Scope.notMem_of_param?_eq_none missing)
    | some t => exact fits _ (mem_of_lookup found)

theorem Scope.IsScoped.assign (fits : scope.IsScoped Listed) (name : String) {t : Tree}
    (own : t.IsScoped scope.params Listed) : Scope.IsScoped Listed ⟨scope.params, (name, t) :: scope.locals⟩ := by
  rw [Scope.IsScoped, forall_mem_cons]
  exact ⟨own, fits⟩

theorem Scope.isScoped_params (params : List String) : Scope.IsScoped Listed ⟨params, []⟩ := by
  simp [Scope.IsScoped]

theorem isScoped_hostExpr {t : Tree} (listed : Listed e)
    (done : hostExpr scope e = .ok t) : t.IsScoped scope.params Listed := by
  unfold hostExpr at done
  split at done
  · cases done
  · rename_i free
    split at done
    · cases done
      refine (every_of_leaf rfl).mpr ⟨e, listed, rfl, fun name param mentioned => ?_⟩
      have unbound := List.find?_eq_none.mp free name (Expr.mem_names mentioned)
      exact unbound (by simp [Scope.binds, param])
    · cases done

theorem isScoped_literalTree {params : List String} {value : Literal} {t : Tree} (done : literalTree value = .ok t) :
    t.IsScoped params Listed := by
  cases value with
  | int n =>
    cases done
    exact .literal _
  | float x =>
    cases done
    exact .literal _
  | _ => cases done

section

variable {params : List String}

theorem isScoped_unaryTree {op : UnaryOp} {operand t : Tree} (fits : operand.IsScoped params Listed)
    (done : unaryTree op e operand = .ok t) : t.IsScoped params Listed := by
  dsimp only [unaryTree] at done
  split at done
  · cases done
    exact fits
  · cases done
    exact .literal _
  · cases done
    exact .call _ (by simpa using fits)
  · cases done
    exact .call _ (by simpa using fits)
  · cases done

variable {trees : List (Except Error Tree)}
  (fits : ∀ outcome ∈ trees, ∀ t, outcome = .ok t → t.IsScoped params Listed)
include fits

variable {args : List Expr}

theorem isScoped_typedTree {name : String} {t : Tree}
    (done : typedTree name e args trees = .ok t) : t.IsScoped params Listed := by
  unfold typedTree at done
  split at done
  · obtain ⟨grade, -, done⟩ := of_bind done
    obtain ⟨operand, found, ⟨⟩⟩ := of_bind done
    exact (fits _ mem_cons_self operand found).typed _
  · cases done
  · obtain ⟨operand, found, done⟩ := of_bind done
    obtain ⟨grades, -, ⟨⟩⟩ := of_bind done
    exact (fits _ mem_cons_self operand found).typed _
  · obtain ⟨operand, found, ⟨⟩⟩ := of_bind done
    exact (fits _ mem_cons_self operand found).typed _
  · cases done

theorem isScoped_callTree {name : String} {keywords : List Expr} {t : Tree}
    (done : callTree scope name e args keywords trees = .ok t) : t.IsScoped params Listed := by
  dsimp only [callTree] at done
  split at done
  · cases done
  split at done
  · cases done
  split at done
  · cases done
  split at done
  · exact isScoped_typedTree fits done
  · obtain ⟨arguments, found, ⟨⟩⟩ := of_bind done
    refine .call name fun t mem => ?_
    obtain ⟨outcome, listed, same⟩ := mem_of_mapM found mem
    exact fits outcome listed t same

end

mutual

theorem isScoped_convert (down : Expr.IsDownward Listed) (fits : scope.IsScoped Listed) :
    ∀ (e : Expr) {t : Tree}, Listed e → convert scope e = .ok t → t.IsScoped scope.params Listed
  | .literal value, _, _, done => isScoped_literalTree done
  | .name id, _, _, done => by
    cases done
    exact fits.resolve id
  | .binary op left right, _, listed, done => by
    rw [convert] at done
    split at done
    · cases done
    · obtain ⟨l, first, done⟩ := of_bind done
      obtain ⟨r, second, ⟨⟩⟩ := of_bind done
      have onLeft := isScoped_convert down fits left (down _ listed _ (by simp [Expr.children])) first
      have onRight := isScoped_convert down fits right (down _ listed _ (by simp [Expr.children])) second
      exact .call _ (by simpa using ⟨onLeft, onRight⟩)
  | .unary op operand, _, listed, done => by
    rw [convert] at done
    obtain ⟨inner, first, done⟩ := of_bind done
    have onOperand := isScoped_convert down fits operand (down _ listed _ (by simp [Expr.children])) first
    exact isScoped_unaryTree onOperand done
  | .call function args keywords, _, listed, done => by
    by_cases named : ∃ f, function = .name f
    · obtain ⟨f, rfl⟩ := named
      have each : ∀ e ∈ args, Listed e := fun e mem => down _ listed e (by simp [Expr.children, mem])
      exact isScoped_callTree (isScoped_convertEach down fits args each) done
    · rw [convert] at done
      · exact isScoped_hostExpr listed done
      · exact fun f same => named ⟨f, same⟩
  | .attribute _ _, _, listed, done | .subscript _ _, _, listed, done => isScoped_hostExpr listed done
  | .slice _ _ _, _, _, done | .keyword _ _, _, _, done | .conjunction _, _, _, done | .disjunction _, _, _, done
  | .comparison _ _ _, _, _, done | .conditional _ _ _, _, _, done | .lambda _ _, _, _, done
  | .params _ _ _ _ _, _, _, done | .param _ _ _, _, _, done | .named _ _, _, _, done | .starred _, _, _, done
  | .tuple _, _, _, done | .list _, _, _, done | .set _, _, _, done | .mapping _, _, _, done | .entry _ _, _, _, done
  | .comprehension _ _ _ _, _, _, done | .clause _ _ _ _, _, _, done | .await _, _, _, done | .yield _, _, _, done
  | .yieldFrom _, _, _, done | .joined _, _, _, done | .formatted _ _ _, _, _, done => by cases done

theorem isScoped_convertEach (down : Expr.IsDownward Listed) (fits : scope.IsScoped Listed) :
    ∀ es : List Expr, (∀ e ∈ es, Listed e) →
      ∀ outcome ∈ convertEach scope es, ∀ t, outcome = .ok t → t.IsScoped scope.params Listed
  | [], _ => by simp [convertEach]
  | e :: es, listed => by
    rw [forall_mem_cons] at listed
    rw [convertEach, forall_mem_cons]
    exact ⟨fun _ done => isScoped_convert down fits e listed.1 done, isScoped_convertEach down fits es listed.2⟩

end

variable {name : String} {owner : Owner} {s : Stmt} {program : Program} {source : Source} {t : Tree} {f : Callable}

theorem mem_expressions_of_readLocal {params : List String}
    {hint : Option Expr} {value : Expr} (done : readLocal owner params s = .ok (name, hint, value)) :
    value ∈ s.expressions := by
  unfold readLocal at done
  split at done
  · split at done
    · cases done
    · cases done
      simp [Stmt.expressions]
  · split at done
    · cases done
    · cases done
      simp [Stmt.expressions]
  · split at done <;> cases done
  · split at done <;> cases done
  · cases done

section

variable (down : Expr.IsDownward Listed)
include down

variable {body : List Stmt} {params : Expr}

theorem isScoped_readLocals {scope scope' : Scope} (fits : scope.IsScoped Listed)
    (listed : ∀ s ∈ body, ∀ e ∈ s.expressions, Listed e) (done : readLocals owner scope body = .ok scope') :
    scope'.params = scope.params ∧ scope'.IsScoped Listed := by
  induction body generalizing scope with
  | nil =>
    cases done
    exact ⟨rfl, fits⟩
  | cons s rest ih =>
    rw [forall_mem_cons] at listed
    rw [readLocals] at done
    obtain ⟨⟨name, hint, value⟩, found, done⟩ := of_bind done
    obtain ⟨tree, converted, done⟩ := of_bind done
    have own := isScoped_convert down fits value (listed.1 value (mem_expressions_of_readLocal found)) converted
    cases hint with
    | none =>
      obtain ⟨same, inner⟩ := ih (fits.assign name own) listed.2 done
      exact ⟨same, inner⟩
    | some type =>
      obtain ⟨spec, -, done⟩ := of_bind done
      obtain ⟨same, inner⟩ := ih (fits.assign name (own.typed spec)) listed.2 done
      exact ⟨same, inner⟩

theorem isScoped_readLambda {body : Expr} (listed : Listed body)
    (done : readLambda params body = .ok f) : (Binding.function f).IsScoped (declared params) Listed := by
  obtain ⟨names, found, done⟩ := of_bind done
  obtain ⟨tree, converted, ⟨⟩⟩ := of_bind done
  rw [← eq_declared_of_readParams found]
  exact ⟨rfl, isScoped_convert down (Scope.isScoped_params names) body listed converted⟩

theorem isScoped_readDef {returns : Option Expr} {decorators : List Expr}
    (listed : ∀ s ∈ body, ∀ e ∈ s.expressions, Listed e)
    (done : readDef name params returns decorators body = .ok f) :
    (Binding.function f).IsScoped (declared params) Listed := by
  dsimp only [readDef] at done
  split at done
  · cases done
  split at done
  · cases done
  obtain ⟨names, found, done⟩ := of_bind done
  rw [← eq_declared_of_readParams found]
  have documented : ∀ s ∈ if body.head?.any isDocumentation then body.tail else body, s ∈ body := by
    intro s mem
    split at mem
    · exact mem_of_mem_tail mem
    · exact mem
  split at done
  · rename_i value last
    obtain ⟨scope, inner, done⟩ := of_bind done
    obtain ⟨tree, converted, ⟨⟩⟩ := of_bind done
    obtain ⟨same, fits⟩ := isScoped_readLocals down (Scope.isScoped_params names)
      (fun s mem => listed s (documented s (dropLast_subset _ mem))) inner
    have returned := listed _ (documented _ (mem_of_getLast? last)) value (by simp [Stmt.expressions])
    have own := isScoped_convert down fits value returned converted
    rw [show scope.params = names from same] at own
    exact ⟨rfl, own⟩
  · cases done

theorem isScoped_readBinding {entry : String × Binding} (listed : ∀ e ∈ s.expressions, Listed e)
    (done : readBinding s = .ok entry) : entry.2.IsScoped (parameters s) Listed := by
  unfold readBinding at done
  split at done
  · obtain ⟨f, read, ⟨⟩⟩ := of_bind done
    refine isScoped_readDef down (fun s mem e inside => listed e ?_) read
    rw [Stmt.expressions]
    exact mem_append_right _ (mem_blockExpressions.mpr ⟨s, mem, inside⟩)
  · obtain ⟨f, read, ⟨⟩⟩ := of_bind done
    refine isScoped_readLambda down (down _ (listed _ mem_concat_self) _ ?_) read
    simp [Expr.children]
  · obtain ⟨tree, converted, ⟨⟩⟩ := of_bind done
    exact isScoped_convert down (Scope.isScoped_params []) _ (listed _ mem_concat_self) converted
  · cases done
  · obtain ⟨spec, -, done⟩ := of_bind done
    split at done
    · cases done
      exact (IsScoped.symbol not_mem_nil).typed spec
    · obtain ⟨tree, converted, ⟨⟩⟩ := of_bind done
      have own := isScoped_convert down (Scope.isScoped_params []) _ (listed _ (by simp [Stmt.expressions])) converted
      exact own.typed spec
  · cases done
  · cases done
  · cases done

end

theorem of_readProgram (done : readProgram source = .ok program) :
    ∃ statements e, source.statements = .ok (statements ++ [.expression e]) ∧
      statements.mapM readBinding = .ok program.bindings ∧ convert .empty e = .ok program.expression := by
  obtain ⟨statements, found, done⟩ := of_bind done
  split at done
  · cases done
  · rename_i e final
    obtain ⟨bindings, read, done⟩ := of_bind done
    obtain ⟨tree, converted, ⟨⟩⟩ := of_bind done
    refine ⟨statements.dropLast, e, ?_, read, converted⟩
    rw [found, dropLast_append_getLast? _ final]
  · cases done

theorem isScoped_convert_empty {e : Expr} (converted : convert .empty e = .ok t) : t.IsScoped [] (Expr.IsPart · e) :=
  isScoped_convert (fun _ part _ => part.of_mem_children) (Scope.isScoped_params []) e .self converted

theorem isScoped_readExpression (done : readExpression source = .ok t) :
    ∃ e : Expr, t.IsScoped [] (Expr.IsPart · e) := by
  dsimp only [readExpression] at done
  split at done
  · obtain ⟨e, -, done⟩ := of_bind done
    exact ⟨e, isScoped_convert_empty done⟩
  · exact ⟨_, isScoped_convert_empty done⟩
  · exact ⟨_, isScoped_convert_empty done⟩
  · exact ⟨_, isScoped_convert_empty done⟩
  · cases done
  · cases done
  · cases done

theorem isScoped_readFunction (done : readFunction source = .ok f) :
    ∃ s, source.statements = .ok [s] ∧ (Binding.function f).IsScoped (parameters s) s.Holds := by
  obtain ⟨statements, found, done⟩ := of_bind done
  split at done
  · refine ⟨_, found, isScoped_readLambda (Stmt.isDownward_holds _) ?_ done⟩
    exact Stmt.isDownward_holds _ _ (Stmt.holds_of_mem _ mem_cons_self) _ (by simp [Expr.children])
  · obtain ⟨entry, read, done⟩ := of_bind done
    have own := isScoped_readBinding (Stmt.isDownward_holds _) Stmt.holds_of_mem read
    split at done
    · cases done
      exact ⟨_, found, own⟩
    · cases done
  · cases done

theorem isSurface_readProgram (done : readProgram source = .ok program) :
    (∀ entry ∈ program.bindings, entry.2.tree.IsSurface) ∧ program.expression.IsSurface := by
  obtain ⟨statements, e, -, read, converted⟩ := of_readProgram done
  refine ⟨fun entry mem => ?_, (isScoped_convert_empty converted).isSurface⟩
  obtain ⟨s, -, found⟩ := mem_of_mapM read mem
  exact (isScoped_readBinding s.isDownward_holds Stmt.holds_of_mem found).isSurface

theorem isSurface_readExpression (done : readExpression source = .ok t) : t.IsSurface := by
  obtain ⟨e, own⟩ := isScoped_readExpression done
  exact own.isSurface

theorem isSurface_readFunction (done : readFunction source = .ok f) : f.body.IsSurface := by
  obtain ⟨s, -, own⟩ := isScoped_readFunction done
  exact own.isSurface

end Surface

end Bladewright
