import Bladewright.Host.Syntax
import Bladewright.Numeral.Decimal
import Bladewright.Text.Quoted

/-!
Source text of expressions and statements, with the fewest parentheses that keep the reading. Each expression is
printed at a level: the loosest binding that its place admits without parentheses.
-/
namespace Bladewright.Host

open Bladewright.Numeral Bladewright.Text

abbrev Level := Nat

namespace Level

def named : Level := 1
def tuple : Level := 2
def yield : Level := 3
def test : Level := 4
def disjunction : Level := 5
def conjunction : Level := 6
def negation : Level := 7
def comparison : Level := 8
def bitOr : Level := 9
def bitXor : Level := 10
def bitAnd : Level := 11
def shift : Level := 12
def sum : Level := 13
def term : Level := 14
def factor : Level := 15
def power : Level := 16
def await : Level := 17
def atom : Level := 18

def tighter (level : Level) : Level := min (level + 1) atom

end Level

def UnaryOp.spelling : UnaryOp → String
  | .invert => "~"
  | .not => "not "
  | .plus => "+"
  | .minus => "-"

def UnaryOp.level : UnaryOp → Level
  | .not => .negation
  | _ => .factor

def BinaryOp.spelling : BinaryOp → String
  | .add => "+"
  | .sub => "-"
  | .mul => "*"
  | .matMul => "@"
  | .div => "/"
  | .mod => "%"
  | .shiftLeft => "<<"
  | .shiftRight => ">>"
  | .bitOr => "|"
  | .bitXor => "^"
  | .bitAnd => "&"
  | .floorDiv => "//"
  | .pow => "**"

def BinaryOp.level : BinaryOp → Level
  | .add | .sub => .sum
  | .mul | .matMul | .div | .mod | .floorDiv => .term
  | .shiftLeft | .shiftRight => .shift
  | .bitOr => .bitOr
  | .bitXor => .bitXor
  | .bitAnd => .bitAnd
  | .pow => .power

/-- The levels of the operands; only the power associates to the right. -/
def BinaryOp.operandLevels (op : BinaryOp) : Level × Level :=
  if op = .pow then (op.level.tighter, op.level) else (op.level, op.level.tighter)

def CompareOp.spelling : CompareOp → String
  | .eq => "=="
  | .notEq => "!="
  | .lt => "<"
  | .le => "<="
  | .gt => ">"
  | .ge => ">="
  | .is => "is"
  | .isNot => "is not"
  | .isIn => "in"
  | .notIn => "not in"

/-- The text of a float constant: an infinity is written as a literal that overflows, and no number
as the difference of two of those. -/
def floatText (x : Floating) : String :=
  match x with
  | .infinite negative => if negative then "-1e309" else "1e309"
  | .nan => "(1e309-1e309)"
  | x => x.text

def imaginaryText (x : Floating) : String :=
  let text := floatText x
  (if text.endsWith ".0" then String.ofList (text.toList.take (text.length - 2)) else text) ++ "j"

def longQuotes : List String := ["\"\"\"", "'''"]

def allQuotes : List String := ["'", "\""] ++ longQuotes

def occursIn (part : List Char) : List Char → Bool
  | [] => part.isEmpty
  | c :: cs => part.isPrefixOf (c :: cs) || occursIn part cs

/-- The body of a string literal written with few escapes, and the quotes it can stand between. Line
feeds and tabs stay as they are unless `escapeBlanks` is set. -/
def stringBody (s : String) (quotes : List String) (escapeBlanks : Bool) : String × List String :=
  let escaped := s.toList.flatMap fun c =>
    if !escapeBlanks && (c = '\n' || c = '\t') then [c]
    else if c = '\\' || !isPrintable c then escapeSequence c
    else [c]
  let usable := quotes.filter fun q =>
    (!escaped.contains '\n' || longQuotes.contains q) && !occursIn q.toList escaped
  if usable.isEmpty then
    let quote := quoteFor s.toList
    (String.ofList (quotedBody s), [(quotes.find? (·.toList.contains quote)).getD (String.singleton quote)])
  else
    match escaped.getLast? with
    | none => ("", usable)
    | some last =>
      let sorted := usable.filter (·.toList.head? != some last) ++ usable.filter (·.toList.head? == some last)
      if (sorted.head?.bind (·.toList.head?)) == some last then
        (String.ofList (escaped.dropLast ++ ['\\', last]), sorted)
      else (String.ofList escaped, sorted)

def plainString (s : String) (quotes : List String) : String :=
  let (body, usable) := stringBody s quotes false
  let quote := usable.headD "'"
  quote ++ body ++ quote

def Literal.text (plain : Bool) : Literal → String
  | .none => "None"
  | .true => "True"
  | .false => "False"
  | .ellipsis => "..."
  | .int value => toString value
  | .float value => floatText value
  | .imaginary value => imaginaryText value
  | .str value marked =>
    (if marked then "u" else "") ++ (if plain then plainString value allQuotes else quoted value)
  | .bytes value => quotedBytes value
  | .foreign text => text

def parenthesized (level own : Level) (text : String) : String :=
  if own < level then "(" ++ text ++ ")" else text

def commas (texts : List String) : String := ", ".intercalate texts

def tupleBody : List String → String
  | [text] => text ++ ","
  | texts => commas texts

/-- The pieces of a formatted string joined between the first quotes that suit all of them; a piece
is marked when it is literal text. -/
def joinedBody (pieces : List (String × Bool)) : String :=
  let step := fun (state : Option (List String × List String)) (piece : String × Bool) =>
    state.bind fun (done, quotes) =>
      let (body, usable) := stringBody piece.1 quotes piece.2
      if usable.any quotes.contains then some (done ++ [body], usable) else none
  match pieces.foldl step (some ([], allQuotes)) with
  | some (done, quotes) =>
    let quote := quotes.headD "'"
    quote ++ String.join done ++ quote
  | none =>
    let bodies := pieces.map fun piece =>
      String.ofList ((String.ofList ('"' :: piece.1.toList)).toList.flatMap (escape '\'') |>.drop 1)
    "'''" ++ String.join bodies ++ "'''"

def Expr.isLiteral : Expr → Bool
  | .literal _ => true
  | _ => false

def Expr.isWholeNumber : Expr → Bool
  | .literal (.int _) | .literal .true | .literal .false => true
  | _ => false

def bracesDoubled (s : String) : String :=
  String.ofList (s.toList.flatMap fun c => if c = '\x7b' || c = '\x7d' then [c, c] else [c])

/-- A value in braces inside a formatted string; a brace of its own is set off by a blank. -/
def inBraces (value : String) (conversion : Option Char) (spec : String) : String :=
  "\x7b" ++ (if value.startsWith "\x7b" then " " else "") ++ value
    ++ (match conversion with
      | some c => "!" ++ String.singleton c
      | none => "")
    ++ spec ++ "\x7d"

mutual

/-- The text of an expression in a place of the given level. In `plain` text, which stands inside
the braces of a formatted string, backslashes are avoided. -/
def Expr.text (plain : Bool) (level : Level) : Expr → String
  | .literal value => value.text plain
  | .name id => id
  | .attribute value field =>
    value.text plain .atom ++ (if value.isWholeNumber then " ." else ".") ++ field
  | .subscript value index =>
    let body := match index with
      | .tuple elements =>
        if elements.isEmpty then "()" else tupleBody (textList plain .test elements)
      | index => index.text plain .test
    value.text plain .atom ++ "[" ++ body ++ "]"
  | .slice lower upper step =>
    textOption plain "" lower ++ ":" ++ textOption plain "" upper ++ textOption plain ":" step
  | .call function args keywords =>
    function.text plain .atom ++ "("
      ++ commas (textList plain .test args ++ textList plain .test keywords) ++ ")"
  | .keyword name value =>
    (match name with
      | some name => name ++ "="
      | none => "**") ++ value.text plain .test
  | .unary op operand => parenthesized level op.level (op.spelling ++ operand.text plain op.level)
  | .binary op left right =>
    parenthesized level op.level
      (left.text plain op.operandLevels.1 ++ " " ++ op.spelling ++ " "
        ++ right.text plain op.operandLevels.2)
  | .conjunction values =>
    parenthesized level .conjunction (" and ".intercalate (textRising plain Level.conjunction.tighter values))
  | .disjunction values =>
    parenthesized level .disjunction (" or ".intercalate (textRising plain Level.disjunction.tighter values))
  | .comparison first ops rest =>
    parenthesized level .comparison
      (first.text plain Level.comparison.tighter
        ++ String.join ((ops.zip (textList plain Level.comparison.tighter rest)).map fun (op, e) =>
          " " ++ op.spelling ++ " " ++ e))
  | .conditional test body otherwise =>
    parenthesized level .test
      (body.text plain Level.test.tighter ++ " if " ++ test.text plain Level.test.tighter
        ++ " else " ++ otherwise.text plain .test)
  | .lambda parameters body =>
    let head := parameters.text plain .test
    parenthesized level .test
      ("lambda" ++ (if head.isEmpty then "" else " " ++ head) ++ ": " ++ body.text plain .test)
  | .params positional regular rest keywords keywordRest =>
    let star := match rest with
      | some p => ["*" ++ p.text plain .test]
      | none => if keywords.isEmpty then [] else ["*"]
    let doubleStar := match keywordRest with
      | some p => ["**" ++ p.text plain .test]
      | none => []
    commas (textList plain .test positional ++ (if positional.isEmpty then [] else ["/"])
      ++ textList plain .test regular ++ star ++ textList plain .test keywords ++ doubleStar)
  | .param name hint default => name ++ textOption plain ": " hint ++ textOption plain "=" default
  | .named target value =>
    parenthesized level .named (target.text plain .atom ++ " := " ++ value.text plain .atom)
  | .starred value => "*" ++ value.text plain .bitOr
  | .tuple elements =>
    if elements.isEmpty then "()"
    else parenthesized level .tuple (tupleBody (textList plain .test elements))
  | .list elements => "[" ++ commas (textList plain .test elements) ++ "]"
  | .set elements =>
    if elements.isEmpty then "\x7b*()\x7d"
    else "\x7b" ++ commas (textList plain .test elements) ++ "\x7d"
  | .mapping entries => "\x7b" ++ commas (textList plain .test entries) ++ "\x7d"
  | .entry (some key) value => key.text plain .test ++ ": " ++ value.text plain .test
  | .entry none value => "**" ++ value.text plain .bitOr
  | .comprehension brackets element value clauses =>
    let body := element.text plain .test ++ textOption plain ": " value
      ++ String.join (textList plain .test clauses)
    match brackets with
    | .square => "[" ++ body ++ "]"
    | .round => "(" ++ body ++ ")"
    | .braces => "\x7b" ++ body ++ "\x7d"
  | .clause async target source conditions =>
    (if async then " async for " else " for ") ++ target.text plain .tuple ++ " in "
      ++ source.text plain Level.test.tighter
      ++ String.join ((textList plain Level.test.tighter conditions).map (" if " ++ ·))
  | .await value => parenthesized level .await ("await " ++ value.text plain .atom)
  | .yield none => parenthesized level .yield "yield"
  | .yield (some value) => parenthesized level .yield ("yield " ++ value.text plain .atom)
  | .yieldFrom value => parenthesized level .yield ("yield from " ++ value.text plain .atom)
  | .joined parts =>
    let pieces := innerList parts
    "f" ++ if plain then plainString (String.join pieces) allQuotes
      else joinedBody (pieces.zip (parts.map Expr.isLiteral))
  | .formatted value conversion spec =>
    inBraces (value.text true Level.test.tighter) conversion (innerSpec spec)

def Expr.innerText : Expr → String
  | .joined parts => String.join (innerList parts)
  | .literal (.str value _) => bracesDoubled value
  | .formatted value conversion spec =>
    inBraces (value.text true Level.test.tighter) conversion (innerSpec spec)
  | _ => ""

def innerSpec : Option Expr → String
  | some spec => ":" ++ spec.innerText
  | none => ""

def innerList : List Expr → List String
  | [] => []
  | e :: es => e.innerText :: innerList es

def textList (plain : Bool) (level : Level) : List Expr → List String
  | [] => []
  | e :: es => e.text plain level :: textList plain level es

def textRising (plain : Bool) (level : Level) : List Expr → List String
  | [] => []
  | e :: es => e.text plain level :: textRising plain level.tighter es

def textOption (plain : Bool) (mark : String) : Option Expr → String
  | some e => mark ++ e.text plain .test
  | none => ""

end

def Expr.source (e : Expr) : String := e.text false .test

end Bladewright.Host
