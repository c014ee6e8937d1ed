import Bladewright.Host.Syntax

/-!
Walks through host expressions, level by level.
-/
namespace Bladewright.Host.Expr

mutual

def height : Expr → Nat
  | .literal _ | .name _ => 0
  | .attribute value _ => height value + 1
  | .subscript value index => max (height value) (height index) + 1
  | .slice lower upper step =>
    max (heightOption lower) (max (heightOption upper) (heightOption step)) + 1
  | .call function args keywords =>
    max (height function) (max (heightList args) (heightList keywords)) + 1
  | .keyword _ value => height value + 1
  | .unary _ operand => height operand + 1
  | .binary _ left right => max (height left) (height right) + 1
  | .conjunction values | .disjunction values => heightList values + 1
  | .comparison first _ rest => max (height first) (heightList rest) + 1
  | .conditional test body otherwise => max (height test) (max (height body) (height otherwise)) + 1
  | .lambda parameters body => max (height parameters) (height body) + 1
  | .params positional regular rest keywords keywordRest =>
    max (heightList positional) (max (heightList regular) (max (heightOption rest)
      (max (heightList keywords) (heightOption keywordRest)))) + 1
  | .param _ hint default => max (heightOption hint) (heightOption default) + 1
  | .named target value => max (height target) (height value) + 1
  | .starred value => height value + 1
  | .tuple elements | .list elements | .set elements => heightList elements + 1
  | .mapping entries => heightList entries + 1
  | .entry key value => max (heightOption key) (height value) + 1
  | .comprehension _ element value clauses =>
    max (height element) (max (heightOption value) (heightList clauses)) + 1
  | .clause _ target source conditions =>
    max (height target) (max (height source) (heightList conditions)) + 1
  | .await value => height value + 1
  | .yield value => heightOption value + 1
  | .yieldFrom value => height value + 1
  | .joined parts => heightList parts + 1
  | .formatted value _ spec => max (height value) (heightOption spec) + 1

def heightList : List Expr → Nat
  | [] => 0
  | e :: es => max (height e) (heightList es)

def heightOption : Option Expr → Nat
  | none => 0
  | some e => height e

end

def levels : Nat → List Expr → List Expr
  | 0, level => level
  | depth + 1, level => level ++ levels depth (level.flatMap children)

def breadthFirst (e : Expr) : List Expr := levels e.height [e]

def name? : Expr → Option String
  | .name id => some id
  | _ => none

def names (e : Expr) : List String := e.breadthFirst.filterMap name?

end Bladewright.Host.Expr
