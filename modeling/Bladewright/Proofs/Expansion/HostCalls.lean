import Bladewright.Proofs.Expansion.Keeps
import Bladewright.Proofs.Host.Decimals
import Bladewright.Proofs.Host.Writable
import Bladewright.Surface.Program

/-!
Calls that are left to the host. The text that replaces a call of unbound functions reads back as the call, also where
calls are nested, unless it has a number beyond the range of doubles, which comes back as a name.
-/
namespace Bladewright.Expansion

open List Numeral Host Surface

/-- A host expression of names and integers by attributes, subscripts and calls, with so many levels of brackets left.
It is a chain if it can be followed by more of these. -/
inductive HostPart : Bool → Nat → Expr → Prop
  | natural {depth n : Nat} (writable : isWritable n = true) : HostPart false depth (.literal (.int n))
  | negative {depth n : Nat} (positive : 0 < n) (writable : isWritable n = true) :
    HostPart false depth (.unary .minus (.literal (.int n)))
  | name {depth : Nat} {id : String} (name : IsName id) : HostPart true depth (.name id)
  | «attribute» {depth : Nat} {value : Expr} {field : String} (own : HostPart true depth value) (name : IsName field) :
    HostPart true depth (.attribute value field)
  | subscript {depth : Nat} {value index : Expr} (own : HostPart true (depth + 1) value)
    (place : HostPart false depth index) : HostPart true (depth + 1) (.subscript value index)
  | call {depth : Nat} {function : Expr} {args : List Expr} (own : HostPart true (depth + 1) function)
    (each : ∀ e ∈ args, HostPart false depth e) : HostPart true (depth + 1) (.call function args [])
  | item {depth : Nat} {e : Expr} (own : HostPart true depth e) : HostPart false depth e

/-- Whether an expression is left to the host as it is: neither a name nor a call of a name. -/
def isLeft : Expr → Bool
  | .attribute .. | .subscript .. | .call (.attribute ..) .. | .call (.subscript ..) .. | .call (.call ..) .. => true
  | _ => false

/-- A tree for the host, with so many levels of brackets left: numbers, unbound names, host expressions that read alike
wherever they stand, and calls of unbound functions. -/
inductive HostTree (table : Table) : Nat → Tree → Prop
  | integer {depth : Nat} {n : Int} (writable : isWritable n = true) : HostTree table depth (.literal (.ofInt n))
  | double {depth : Nat} {q : ℚ} (holds : binary64.Holds (.finite q)) : HostTree table depth (.literal (.approx q))
  | infinite {depth : Nat} {negative : Bool} : HostTree table depth (.literal (.infinity negative))
  | symbol {depth : Nat} {id : String} (name : IsName id) (free : table.reference? id = none) :
    HostTree table depth (.symbol id)
  | host {depth : Nat} {source : String} {e : Expr} (written : WrittenItem depth source.toList e)
    (kept : convert .empty e = .ok (.host source)) : HostTree table depth (.host source)
  | part {depth : Nat} {e : Expr} (own : HostPart true depth e) (left : isLeft e = true) :
    HostTree table depth (.host e.source)
  | call {depth : Nat} {f : String} {args : List Tree} (name : IsName f) (untyped : isInlineType f = false)
    (free : table.function? f = none) (each : ∀ t ∈ args, HostTree table depth t) :
    HostTree table (depth + 1) (.call f args)

mutual

/-- The tree that the text of a tree stands for: infinite numbers are written as names. -/
def spelled : Tree → Tree
  | .literal (.infinity negative) => if negative then .call "negate" [.symbol "inf"] else .symbol "inf"
  | .call f args => .call f (spelledAll args)
  | t => t

def spelledAll : List Tree → List Tree
  | [] => []
  | t :: ts => spelled t :: spelledAll ts

end

variable {table : Table} {depth : Nat} {t : Tree}

theorem spelledAll_eq_iff {ts : List Tree} : spelledAll ts = ts ↔ ∀ t ∈ ts, spelled t = t := by
  induction ts with
  | nil => simp [spelledAll]
  | cons t ts ih => rw [spelledAll, List.cons.injEq, forall_mem_cons, ih]

theorem HostTree.spelled_eq_iff (own : HostTree table depth t) :
    spelled t = t ↔ ∀ negative, .literal (.infinity negative) ∉ t.walk := by
  induction own with
  | @infinite depth negative =>
    refine iff_of_false (fun same => ?_) fun finite => finite negative (by simp [Tree.walk])
    cases negative <;> cases same
  | call name untyped free each ih =>
    rw [spelled, Tree.call.injEq, spelledAll_eq_iff, Tree.walk, Tree.walkAll_eq]
    simp only [true_and, mem_cons, mem_flatMap, reduceCtorEq, false_or, not_exists, not_and]
    exact ⟨fun same negative t mem => (ih t mem).mp (same t mem) negative,
      fun finite t mem => (ih t mem).mpr fun negative => finite negative t mem⟩
  | integer => simp [spelled, Scalar.ofInt, Tree.walk]
  | _ => simp [spelled, Tree.walk]

/-- The text of a tree reads as an expression for what the tree is spelled as. -/
def Rendered (table : Table) (depth : Nat) (t : Tree) : Prop :=
  ∃ (text : String) (e : Expr), hostSource table t = .ok (some text) ∧ WrittenItem depth text.toList e ∧
    convert .empty e = .ok (spelled t)

theorem convert_signedLiteral (negative : Bool) {value : Literal} {c : Scalar}
    (tree : literalTree value = .ok (.literal c)) :
    convert .empty (signedLiteral negative value) = .ok (.literal (if negative then -c else c)) := by
  cases negative with
  | false => exact tree
  | true => simp [signedLiteral, convert, tree, bind, Except.bind, unaryTree, pure, Except.pure]

theorem rendered_integer {n : Int} (writable : isWritable n = true) :
    Rendered table depth (.literal (.ofInt n)) := by
  have one : isWritable 1 = true := by decide +kernel
  have whole : (Scalar.ofInt n).isWritable = true := by
    rw [Scalar.ofInt, Scalar.isWritable, Rat.num_intCast, Rat.den_intCast, writable, Nat.cast_one, one]
    rfl
  refine ⟨toString n, _, ?_, (written_int writable).imp fun _ => And.left, ?_⟩
  · rw [hostSource, whole, Scalar.ofInt, literalSource, Rat.num_intCast, Rat.den_intCast]
    rfl
  · rw [convert_signedLiteral (n < 0) (c := .ofInt n.natAbs) rfl]
    refine congrArg (Except.ok ∘ Tree.literal) ?_
    rcases lt_or_ge n 0 with negative | nonneg
    · rw [decide_eq_true negative, if_pos rfl]
      change Scalar.exact (-(n.natAbs : ℤ)) = Scalar.exact n
      rw [← Rat.intCast_neg]
      exact congrArg _ (congrArg _ (by omega))
    · rw [decide_eq_false (not_lt.mpr nonneg), if_neg (by decide), Int.natAbs_of_nonneg nonneg]

theorem rendered_double {q : ℚ} (holds : binary64.Holds (.finite q)) : Rendered table depth (.literal (.approx q)) := by
  refine ⟨_, _, ?_, writtenItem_float holds, ?_⟩
  · rw [hostSource, literalSource, Format.round_of_holds holds]
    rfl
  · rw [convert_signedLiteral (q < 0) (c := .approx |q|) rfl]
    refine congrArg (Except.ok ∘ Tree.literal) ?_
    rcases lt_or_ge q 0 with negative | nonneg
    · rw [decide_eq_true negative, if_pos rfl, abs_of_neg negative]
      exact congrArg _ (neg_neg q)
    · rw [decide_eq_false (not_lt.mpr nonneg), if_neg (by decide), abs_of_nonneg nonneg]

theorem isName_inf : IsName "inf" := isName_of_ascii (by decide) (by decide) (by decide)

theorem rendered_infinite (negative : Bool) : Rendered table depth (.literal (.infinity negative)) := by
  cases negative with
  | false => exact ⟨"inf", .name "inf", rfl, isName_inf.written.item, rfl⟩
  | true => exact ⟨"-inf", .unary .minus (.name "inf"), rfl, isName_inf.minus, rfl⟩

/-- The texts of the arguments of a call, with the expressions that they read as. -/
theorem rendered_arguments {args : List Tree} (each : ∀ t ∈ args, Rendered table depth t) :
    ∃ items : List (String × Expr), hostSources table args = .ok (some (items.map (·.1))) ∧
      (∀ x ∈ items, WrittenItem depth x.1.toList x.2) ∧ (items.map (·.2)).any isStarredArgument = false ∧
      (convertEach .empty (items.map (·.2))).mapM id = .ok (spelledAll args) := by
  induction args with
  | nil => exact ⟨[], rfl, by simp, rfl, rfl⟩
  | cons t args ih =>
    obtain ⟨⟨text, e, source, written, tree⟩, others⟩ := forall_mem_cons.mp each
    obtain ⟨items, sources, all, unstarred, trees⟩ := ih others
    have plain : isStarredArgument e = false := by
      cases e with
      | starred e => cases tree
      | _ => rfl
    refine ⟨(text, e) :: items, ?_, forall_mem_cons.mpr ⟨written, all⟩, ?_, ?_⟩
    · rw [hostSources, source, sources]
      rfl
    · rw [map_cons, any_cons, plain, unstarred]
      rfl
    · rw [map_cons, convertEach, mapM_cons, tree, trees]
      rfl

theorem rendered_call {f : String} {args : List Tree} (name : IsName f) (untyped : isInlineType f = false)
    (free : table.function? f = none) (each : ∀ t ∈ args, Rendered table depth t) :
    Rendered table (depth + 1) (.call f args) := by
  obtain ⟨items, sources, all, unstarred, trees⟩ := rendered_arguments each
  have call : WrittenChain (depth + 1) _ _ :=
    name.written.call (items.map fun x => (x.1.toList, x.2)) (forall_mem_map.mpr all)
  have text : (f ++ "(" ++ ", ".intercalate (items.map (·.1)) ++ ")").toList =
      f.toList ++ ('(' :: [',', ' '].intercalate ((items.map fun x => (x.1.toList, x.2)).map (·.1)) ++ [')']) := by
    simp [String.toList_intercalate, Function.comp_def]
  refine ⟨_, _, ?_, text ▸ call.item, ?_⟩
  · rw [hostSource, free, Option.isSome_none, if_neg (by decide), sources]
    rfl
  · simp only [map_map, Function.comp_def, convert, callTree, unstarred, untyped, trees]
    rfl

/-! ### Host expressions -/

theorem hostExpr_of_isWritable {scope : Surface.Scope} {e : Expr} (free : e.names.find? scope.binds = none)
    (writable : e.isWritable = true) : hostExpr scope e = .ok (.host e.source) := by
  rw [hostExpr, free, writable]
  rfl

theorem textList_eq_map (es : List Expr) : textList false .test es = es.map Expr.source := by
  induction es with
  | nil => rfl
  | cons e es ih => rw [textList, ih, map_cons, Expr.source]

namespace HostPart

variable {chain : Bool} {e : Expr}

/-- A chain is written alike at every level. -/
theorem text_eq (own : HostPart true depth e) (level : Level) :
    e.text false level = e.source ∧ e.isWholeNumber = false := by
  cases own with
  | @subscript _ value index => exact ⟨by cases index <;> rfl, rfl⟩
  | _ => exact ⟨rfl, rfl⟩

theorem source_subscript {value index : Expr} (own : HostPart true (depth + 1) value)
    (place : HostPart false depth index) :
    (Expr.subscript value index).source = value.source ++ "[" ++ index.source ++ "]" := by
  have body : (Expr.subscript value index).source = value.text false .atom ++ "[" ++ index.source ++ "]" := by
    cases place with
    | item own => cases own <;> rfl
    | _ => rfl
  rw [body, (own.text_eq _).1]

/-- The text of a part reads as the part, wherever it stands. -/
theorem written (own : HostPart chain depth e) : WrittenItem depth e.source.toList e ∧
    (chain = true → WrittenChain depth e.source.toList e) := by
  have both {depth : Nat} {e : Expr} (own : WrittenChain depth e.source.toList e) : WrittenItem depth e.source.toList e ∧
      (true = true → WrittenChain depth e.source.toList e) := ⟨own.item, fun _ => own⟩
  induction own with
  | @natural depth n writable =>
    have number : Written Token.endsNumber Number depth (toString (n : Int)).toList _ := written_int writable
    rw [decide_eq_false (by omega), Int.natAbs_natCast] at number
    exact ⟨number.imp fun _ => And.left, fun chained => by cases chained⟩
  | @negative depth n positive writable =>
    have number : Written Token.endsNumber Number depth (toString (-n : Int)).toList _ :=
      written_int (by simpa [Numeral.isWritable] using writable)
    have text : (Expr.unary .minus (.literal (.int n))).source.toList = (toString (-n : Int)).toList := by
      have sign : (Expr.unary .minus (.literal (.int n))).source = "-" ++ toString (n : Int) := rfl
      rw [sign, String.toList_append, toList_toString, toList_toString, if_neg (by omega), if_pos (by omega), Int.natAbs_neg]
      rfl
    rw [decide_eq_true (by omega), Int.natAbs_neg, Int.natAbs_natCast, ← text] at number
    exact ⟨number.imp fun _ => And.left, fun chained => by cases chained⟩
  | name name => exact both name.written
  | «attribute» own name ih =>
    refine both ?_
    rw [Expr.source, Expr.text, (own.text_eq _).1, (own.text_eq .test).2]
    simpa using (ih.2 rfl).attribute name
  | subscript own place ih ih' =>
    refine both ?_
    rw [own.source_subscript place]
    simpa using (ih.2 rfl).subscript ih'.1
  | @call depth function args own each ih ih' =>
    have call := (ih.2 rfl).call (args.map fun e => (e.source.toList, e)) (forall_mem_map.mpr fun e mem => (ih' e mem).1)
    refine both ?_
    rw [Expr.source, Expr.text, (own.text_eq _).1, textList_eq_map]
    simpa [textList, commas, String.toList_intercalate, Function.comp_def] using call
  | item own ih => exact ⟨(ih.2 rfl).item, fun chained => by cases chained⟩

theorem children (own : HostPart chain depth e) : ∀ c ∈ e.children, ∃ chain depth, HostPart chain depth c := by
  induction own with
  | natural | name => exact forall_mem_nil _
  | negative _ writable => exact forall_mem_singleton.mpr ⟨_, 0, .natural writable⟩
  | «attribute» own => exact forall_mem_singleton.mpr ⟨_, _, own⟩
  | subscript own place => exact forall_mem_cons.mpr ⟨⟨_, _, own⟩, forall_mem_singleton.mpr ⟨_, _, place⟩⟩
  | @call _ _ args own each =>
    refine forall_mem_cons.mpr ⟨⟨_, _, own⟩, fun e mem => ⟨_, _, each e ?_⟩⟩
    simpa using mem
  | item own ih => exact ih

theorem isWritable (own : HostPart chain depth e) : e.isWritable = true := by
  refine Expr.isWritable_of_closed (P := fun e => ∃ chain depth, HostPart chain depth e) ?_
    (fun e ⟨chain, depth, own⟩ => own.children) ⟨chain, depth, own⟩
  rintro e ⟨chain, depth, own⟩
  induction own with
  | natural writable => exact writable
  | item own ih => exact ih
  | _ => rfl

/-- What is left to the host is kept as its text. -/
theorem convert_eq (own : HostPart chain depth e) (left : isLeft e = true) : convert .empty e = .ok (.host e.source) := by
  have free : e.names.find? Surface.Scope.empty.binds = none := find?_eq_none.mpr fun id _ => by
    simp [Surface.Scope.binds, Surface.Scope.empty]
  have kept : hostExpr .empty e = .ok (.host e.source) := hostExpr_of_isWritable free own.isWritable
  cases e with
  | «attribute» | subscript => exact kept
  | call function => cases function <;> first | exact kept | cases left
  | _ => cases left

end HostPart

theorem HostTree.rendered (own : HostTree table depth t) : Rendered table depth t := by
  induction own with
  | integer writable => exact rendered_integer writable
  | double holds => exact rendered_double holds
  | infinite => exact rendered_infinite _
  | @symbol depth id name free => exact ⟨id, .name id, by rw [hostSource, free]; rfl, name.written.item, rfl⟩
  | @host depth source e written kept => exact ⟨source, e, rfl, written, kept⟩
  | @part depth e own left => exact ⟨e.source, e, rfl, own.written.1, own.convert_eq left⟩
  | call name untyped free each ih => exact rendered_call name untyped free ih

theorem readExpression_of_written {s : String} {e : Expr} (own : WrittenItem Token.maxBrackets s.toList e) :
    readExpression (.text s) = convert .empty e := by
  obtain ⟨c, head, -, -, edge, -⟩ := own.edges
  have line : '\n' ∉ s.toList := fun mem => absurd (own.inline _ mem) (by decide)
  have indent : Text.isIndent c = false := by
    simp only [isEdge, Token.startsLine, Token.lineFillers, Bool.and_eq_true, Bool.not_eq_true', contains_eq_mem,
      decide_eq_false_iff_not, mem_cons, not_or] at edge
    simp [Text.isIndent, edge]
  rw [readExpression, readExpr, dedent_of_line line head indent, own.trim, own.read]
  rfl

/-- A tree for the host has a text, with which a typed call is replaced. It reads back as the tree if and only if no
number of the tree is infinite. -/
theorem host_tree_reads_back (table : Table) {t : Tree} (own : HostTree table Token.maxBrackets t) :
    ∃ text, hostSource table t = .ok (some text) ∧ readExpression (.text text) = .ok (spelled t) ∧
      (spelled t = t ↔ ∀ negative, .literal (.infinity negative) ∉ t.walk) ∧
      ∀ f args spec, t = .call f args → expand table (.typed t spec) = .ok (.typed (.host text) spec) := by
  obtain ⟨text, e, source, written, tree⟩ := own.rendered
  refine ⟨text, source, (readExpression_of_written written).trans tree, own.spelled_eq_iff, ?_⟩
  rintro f args spec rfl
  cases own with
  | call name untyped free each =>
    simp only [expand, visit, free, source]
    rfl

/-- A call of a name, a negative number, a half and a part of a host value. -/
theorem host_tree_reads_back_part : ∃ text,
    hostSource .builtin (.call "f" [.symbol "x", .literal (.ofInt (-2)), .literal (.approx (1 / 2)), .host "p.q[0]"]) =
      .ok (some text) ∧
    readExpression (.text text) =
      .ok (.call "f" [.symbol "x", .literal (.ofInt (-2)), .literal (.approx (1 / 2)), .host "p.q[0]"]) := by
  have name (id : String) (word : (Text.isIdentifier id && !Token.keywords.contains id &&
      id.toList.all (·.toNat < 128)) = true) : IsName id := by
    simp only [Bool.and_eq_true, Bool.not_eq_true'] at word
    exact isName_of_ascii word.1.1 word.1.2 word.2
  have part : HostPart true 199 (.subscript (.attribute (.name "p") "q") (.literal (.int (0 : Nat)))) :=
    .subscript (.attribute (.name (name "p" (by decide))) (name "q" (by decide))) (.natural (by decide +kernel))
  have half : binary64.Holds (.finite (1 / 2)) := ⟨1, -1, by decide, by decide, by norm_num, by decide +kernel⟩
  have each : ∀ t ∈ [.symbol "x", .literal (.ofInt (-2)), .literal (.approx (1 / 2)), .host "p.q[0]"],
      HostTree .builtin 199 t := by
    simp only [forall_mem_cons, not_mem_nil, false_imp_iff, implies_true, and_true]
    exact ⟨.symbol (name "x" (by decide)) (by decide), .integer (by decide +kernel), .double half,
      .part part rfl⟩
  obtain ⟨text, source, read, -⟩ :=
    host_tree_reads_back .builtin (.call (name "f" (by decide)) (by decide) (by decide) each)
  exact ⟨text, source, read⟩

/-- A number beyond the range of doubles is written as a name. -/
theorem host_call_of_overflow :
    readExpression (.text "f(1e+400)") = .ok (.call "f" [.literal (.infinity false)]) ∧
    hostSource .builtin (.call "f" [.literal (.infinity false)]) = .ok (some "f(inf)") ∧
    readExpression (.text "f(inf)") = .ok (.call "f" [.symbol "inf"]) := by
  have f : IsName "f" := isName_of_ascii (by decide) (by decide) (by decide)
  have large : WrittenItem 199 "1e+400".toList (.literal (.float (.infinite false))) :=
    writtenItem_numeral false ⟨['1'], none, some 400, rfl, by simp, by simp, by simp, rfl, by decide +kernel⟩
  have reads {text : String} {cs : List Char} {e : Expr} (own : WrittenItem 199 cs e)
      (same : text.toList = "f".toList ++ ('(' :: [',', ' '].intercalate [cs] ++ [')'])) :
      readExpression (.text text) = convert .empty (.call (.name "f") [e] []) :=
    readExpression_of_written (same ▸ (f.written.call [(cs, e)] (forall_mem_singleton.mpr own)).item)
  exact ⟨reads large (by decide), rfl, reads isName_inf.written.item (by decide)⟩

end Bladewright.Expansion
