import Bladewright.Numeral.Floating

/-!
The host language: the Python expressions and statements that programs are written in, that opaque inputs are kept as,
and that generated code is made of.
-/
namespace Bladewright.Host

open Bladewright.Numeral

/-- A constant. `foreign` is a value that no literal denotes, known by its written form. -/
inductive Literal where
  | none
  | true
  | false
  | ellipsis
  | int (value : Int)
  | float (value : Floating)
  | imaginary (value : Floating)
  | str (value : String) (marked : Bool)
  | bytes (value : List UInt8)
  | foreign (text : String)
deriving DecidableEq, Repr, Inhabited

inductive UnaryOp where
  | invert
  | not
  | plus
  | minus
deriving DecidableEq, Repr, Inhabited

inductive BinaryOp where
  | add
  | sub
  | mul
  | matMul
  | div
  | mod
  | shiftLeft
  | shiftRight
  | bitOr
  | bitXor
  | bitAnd
  | floorDiv
  | pow
deriving DecidableEq, Repr, Inhabited

inductive CompareOp where
  | eq
  | notEq
  | lt
  | le
  | gt
  | ge
  | is
  | isNot
  | isIn
  | notIn
deriving DecidableEq, Repr, Inhabited

/-- The brackets of a comprehension; `braces` is a set or, with a value, a mapping. -/
inductive Brackets where
  | square
  | round
  | braces
deriving DecidableEq, Repr, Inhabited

/-- Expressions, and the parts of expressions that hold expressions themselves: keyword arguments,
mapping entries, parameters and the clauses of a comprehension. -/
inductive Expr where
  | literal (value : Literal)
  | name (id : String)
  | attribute (value : Expr) (field : String)
  | subscript (value index : Expr)
  | slice (lower upper step : Option Expr)
  | call (function : Expr) (args keywords : List Expr)
  /-- `name=value`, or `**value` without a name. -/
  | keyword (name : Option String) (value : Expr)
  | unary (op : UnaryOp) (operand : Expr)
  | binary (op : BinaryOp) (left right : Expr)
  | conjunction (values : List Expr)
  | disjunction (values : List Expr)
  | comparison (first : Expr) (ops : List CompareOp) (rest : List Expr)
  | conditional (test body otherwise : Expr)
  | lambda (parameters body : Expr)
  | params (positional regular : List Expr) (rest : Option Expr) (keywords : List Expr)
      (keywordRest : Option Expr)
  | param (name : String) (hint default : Option Expr)
  | named (target value : Expr)
  | starred (value : Expr)
  | tuple (elements : List Expr)
  | list (elements : List Expr)
  | set (elements : List Expr)
  | mapping (entries : List Expr)
  /-- `key: value`, or `**value` without a key. -/
  | entry (key : Option Expr) (value : Expr)
  | comprehension (brackets : Brackets) (element : Expr) (value : Option Expr) (clauses : List Expr)
  | clause (async : Bool) (target source : Expr) (conditions : List Expr)
  | await (value : Expr)
  | yield (value : Option Expr)
  | yieldFrom (value : Expr)
  /-- A formatted string: literal pieces and `formatted` ones. -/
  | joined (parts : List Expr)
  | formatted (value : Expr) (conversion : Option Char) (spec : Option Expr)
deriving Repr, Inhabited

inductive Pattern where
  | value (e : Expr)
  | sequence (patterns : List Pattern)
  | star (name : Option String)
  | mapping (keys : List Expr) (patterns : List Pattern) (rest : Option String)
  | record (type : Expr) (patterns : List Pattern) (fields : List String) (fieldPatterns : List Pattern)
  | capture (pattern : Option Pattern) (name : Option String)
  | alternatives (patterns : List Pattern)
deriving Repr, Inhabited

structure Alias where
  name : String
  asName : Option String
deriving DecidableEq, Repr, Inhabited

inductive Stmt where
  | expression (value : Expr)
  | assign (targets : List Expr) (value : Expr)
  | augmented (target : Expr) (op : BinaryOp) (value : Expr)
  /-- `target: hint = value`; `simple` for a name without parentheses. -/
  | annotated (target hint : Expr) (value : Option Expr) (simple : Bool)
  | ret (value : Option Expr)
  | delete (targets : List Expr)
  | pass
  | leave
  | next
  | assert (test : Expr) (message : Option Expr)
  | raise (exception cause : Option Expr)
  | global (names : List String)
  | nonlocal (names : List String)
  | importNames (names : List Alias)
  | importFrom (level : Nat) (module : Option String) (names : List Alias)
  | function (async : Bool) (name : String) (params : Expr) (returns : Option Expr)
      (decorators : List Expr) (body : List Stmt)
  | type (name : String) (bases keywords decorators : List Expr) (body : List Stmt)
  | branch (test : Expr) (body otherwise : List Stmt)
  | loop (test : Expr) (body otherwise : List Stmt)
  | iterate (async : Bool) (target source : Expr) (body otherwise : List Stmt)
  | scoped (async : Bool) (items : List Stmt) (body : List Stmt)
  | scopedItem (context : Expr) (target : Option Expr)
  | attempt (starred : Bool) (body handlers otherwise final : List Stmt)
  | handler (type : Option Expr) (name : Option String) (body : List Stmt)
  | select (subject : Expr) (cases : List Stmt)
  | selectCase (pattern : Pattern) (guard : Option Expr) (body : List Stmt)
deriving Repr, Inhabited

def Expr.int (n : Int) : Expr := .literal (.int n)

def Expr.apply (function : String) (args : List Expr) : Expr := .call (.name function) args []

def Expr.kind : Expr → String
  | .literal _ => "Constant"
  | .name _ => "Name"
  | .attribute .. => "Attribute"
  | .subscript .. => "Subscript"
  | .slice .. => "Slice"
  | .call .. => "Call"
  | .keyword .. => "keyword"
  | .unary .. => "UnaryOp"
  | .binary .. => "BinOp"
  | .conjunction _ | .disjunction _ => "BoolOp"
  | .comparison .. => "Compare"
  | .conditional .. => "IfExp"
  | .lambda .. => "Lambda"
  | .params .. => "arguments"
  | .param .. => "arg"
  | .named .. => "NamedExpr"
  | .starred _ => "Starred"
  | .tuple _ => "Tuple"
  | .list _ => "List"
  | .set _ => "Set"
  | .mapping _ | .entry .. => "Dict"
  | .comprehension .square .. => "ListComp"
  | .comprehension .round .. => "GeneratorExp"
  | .comprehension .braces _ none _ => "SetComp"
  | .comprehension .braces _ (some _) _ => "DictComp"
  | .clause .. => "comprehension"
  | .await _ => "Await"
  | .yield _ => "Yield"
  | .yieldFrom _ => "YieldFrom"
  | .joined _ => "JoinedStr"
  | .formatted .. => "FormattedValue"

def Stmt.kind : Stmt → String
  | .expression _ => "Expr"
  | .assign .. => "Assign"
  | .augmented .. => "AugAssign"
  | .annotated .. => "AnnAssign"
  | .ret _ => "Return"
  | .delete _ => "Delete"
  | .pass => "Pass"
  | .leave => "Break"
  | .next => "Continue"
  | .assert .. => "Assert"
  | .raise .. => "Raise"
  | .global _ => "Global"
  | .nonlocal _ => "Nonlocal"
  | .importNames _ => "Import"
  | .importFrom .. => "ImportFrom"
  | .function async .. => if async then "AsyncFunctionDef" else "FunctionDef"
  | .type .. => "ClassDef"
  | .branch .. => "If"
  | .loop .. => "While"
  | .iterate async .. => if async then "AsyncFor" else "For"
  | .scoped async .. => if async then "AsyncWith" else "With"
  | .scopedItem .. => "withitem"
  | .attempt starred .. => if starred then "TryStar" else "Try"
  | .handler .. => "ExceptHandler"
  | .select .. => "Match"
  | .selectCase .. => "match_case"

def BinaryOp.kind : BinaryOp → String
  | .add => "Add"
  | .sub => "Sub"
  | .mul => "Mult"
  | .matMul => "MatMult"
  | .div => "Div"
  | .mod => "Mod"
  | .shiftLeft => "LShift"
  | .shiftRight => "RShift"
  | .bitOr => "BitOr"
  | .bitXor => "BitXor"
  | .bitAnd => "BitAnd"
  | .floorDiv => "FloorDiv"
  | .pow => "Pow"

def UnaryOp.kind : UnaryOp → String
  | .invert => "Invert"
  | .not => "Not"
  | .plus => "UAdd"
  | .minus => "USub"

def Expr.default? : Expr → Option Expr
  | .param _ _ default => default
  | _ => none

/-- The nodes directly below a node. A parameter's default value is counted below the parameter
list, after the parameters themselves. -/
def Expr.children : Expr → List Expr
  | .literal _ | .name _ => []
  | .attribute value _ => [value]
  | .subscript value index => [value, index]
  | .slice lower upper step => lower.toList ++ upper.toList ++ step.toList
  | .call function args keywords => function :: args ++ keywords
  | .keyword _ value => [value]
  | .unary _ operand => [operand]
  | .binary _ left right => [left, right]
  | .conjunction values | .disjunction values => values
  | .comparison first _ rest => first :: rest
  | .conditional test body otherwise => [test, body, otherwise]
  | .lambda parameters body => [parameters, body]
  | .params positional regular rest keywords keywordRest =>
    positional ++ regular ++ rest.toList ++ keywords ++ keywords.filterMap Expr.default?
      ++ keywordRest.toList ++ (positional ++ regular).filterMap Expr.default?
  | .param _ hint _ => hint.toList
  | .named target value => [target, value]
  | .starred value => [value]
  | .tuple elements | .list elements | .set elements => elements
  | .mapping entries =>
    entries.filterMap (fun | .entry key _ => key | _ => none)
      ++ entries.filterMap (fun | .entry _ value => some value | _ => none)
  | .entry key value => key.toList ++ [value]
  | .comprehension _ element value clauses => element :: value.toList ++ clauses
  | .clause _ target source conditions => target :: source :: conditions
  | .await value => [value]
  | .yield value => value.toList
  | .yieldFrom value => [value]
  | .joined parts => parts
  | .formatted value _ spec => value :: spec.toList

mutual

def Expr.isConstant : Expr → Bool
  | .literal _ => true
  | .unary _ operand => isConstant operand
  | .tuple elements => areConstant elements
  | _ => false

def Expr.areConstant : List Expr → Bool
  | [] => true
  | e :: es => isConstant e && areConstant es

end

end Bladewright.Host
