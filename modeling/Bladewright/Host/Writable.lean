import Bladewright.Host.Listing
import Bladewright.Host.Walk

/-!
Which host code can be written down: integers must not be too long, an expression inside a formatted string must get
along without a backslash, and operators must not stand too deep inside each other.
-/
namespace Bladewright.Host

def Expr.isWritableNode : Expr → Bool
  | .literal (.int n) => Numeral.isWritable n
  | .formatted value _ _ => !(value.text true Level.test.tighter).toList.contains '\\'
  | _ => true

def Expr.isWritable (e : Expr) : Bool := e.breadthFirst.all Expr.isWritableNode

mutual

/-- How deep a writer descends into an expression: by one for each operator. Brackets are as deep as what they hold. -/
def Expr.nesting : Expr → Nat
  | .unary _ operand => operand.nesting + 1
  | .binary _ left right => max left.nesting right.nesting + 1
  | .call function args keywords => max function.nesting (max (nestings args) (nestings keywords))
  | .tuple elements => nestings elements
  | e => e.height

def nestings : List Expr → Nat
  | [] => 0
  | e :: es => max e.nesting (nestings es)

end

/-- An operator takes three of the thousand calls that a writer may be inside. -/
def maxNesting : Nat := 320

def Expr.isShallow (e : Expr) : Bool := e.nesting ≤ maxNesting

mutual

def Pattern.expressions : Pattern → List Expr
  | .value e => [e]
  | .sequence patterns | .alternatives patterns => patternExpressions patterns
  | .star _ => []
  | .mapping keys patterns _ => keys ++ patternExpressions patterns
  | .record type patterns _ fieldPatterns =>
    type :: patternExpressions patterns ++ patternExpressions fieldPatterns
  | .capture none _ => []
  | .capture (some pattern) _ => pattern.expressions

def patternExpressions : List Pattern → List Expr
  | [] => []
  | p :: ps => p.expressions ++ patternExpressions ps

end

mutual

def Stmt.expressions : Stmt → List Expr
  | .expression value => [value]
  | .assign targets value => targets ++ [value]
  | .augmented target _ value => [target, value]
  | .annotated target hint value _ => target :: hint :: value.toList
  | .ret value => value.toList
  | .delete targets => targets
  | .pass | .leave | .next | .global _ | .nonlocal _ | .importNames _ | .importFrom .. => []
  | .assert test message => test :: message.toList
  | .raise exception cause => exception.toList ++ cause.toList
  | .function _ _ params returns decorators body =>
    decorators ++ params :: returns.toList ++ blockExpressions body
  | .type _ bases keywords decorators body => decorators ++ bases ++ keywords ++ blockExpressions body
  | .branch test body otherwise | .loop test body otherwise =>
    test :: blockExpressions body ++ blockExpressions otherwise
  | .iterate _ target source body otherwise =>
    target :: source :: blockExpressions body ++ blockExpressions otherwise
  | .scoped _ items body => blockExpressions items ++ blockExpressions body
  | .scopedItem context target => context :: target.toList
  | .attempt _ body handlers otherwise final =>
    blockExpressions body ++ blockExpressions handlers ++ blockExpressions otherwise ++ blockExpressions final
  | .handler type _ body => type.toList ++ blockExpressions body
  | .select subject cases => subject :: blockExpressions cases
  | .selectCase pattern guard body => pattern.expressions ++ guard.toList ++ blockExpressions body

def blockExpressions : List Stmt → List Expr
  | [] => []
  | s :: rest => s.expressions ++ blockExpressions rest

end

def Stmt.isWritable (s : Stmt) : Bool := s.expressions.all Expr.isWritable

end Bladewright.Host
