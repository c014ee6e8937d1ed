import Bladewright.Host.Syntax
import Bladewright.Numeral.Decimal
import Bladewright.Text.Classes
import Bladewright.Text.NormalForm

/-!
Tokens of the host language. Line ends and changes of indentation are tokens; inside brackets they are not. A text is
scanned up to its end or up to the first place where no token can stand.
-/
namespace Bladewright.Host

open Bladewright.Numeral Bladewright.Text

/-- Why a text cannot be read: its tokens make no expression or statements, it holds what is no token, a
line is indented wrongly, spaces and tabs are mixed in the indentation, or it holds a null character or
half of a surrogate pair. -/
inductive SyntaxFault where
  | invalid
  | malformed
  | indentation
  | tabs
  | nullCharacter
  | surrogate
deriving DecidableEq, Repr, Inhabited

structure StringMarks where
  bytes : Bool := false
  raw : Bool := false
  formatted : Bool := false
  unicode : Bool := false
deriving DecidableEq, Repr, Inhabited

/-- Tokens; a string keeps the text between its quotes as it is written. -/
inductive Token where
  | name (id : String)
  | word (spelling : String)
  | number (value : Literal)
  | string (marks : StringMarks) (body : List Char)
  | op (spelling : String)
  | newline
  | indent
  | dedent
deriving DecidableEq, Repr, Inhabited

namespace Token

/-! ### Numbers -/

def isHexDigit (c : Char) : Bool :=
  c.isDigit || ('a' ≤ c && c ≤ 'f') || ('A' ≤ c && c ≤ 'F')

def digitValue (c : Char) : Nat :=
  if c.isDigit then c.toNat - '0'.toNat
  else if 'a' ≤ c && c ≤ 'z' then c.toNat - 'a'.toNat + 10
  else c.toNat - 'A'.toNat + 10

def positionalValue (base : Nat) (digits : List Char) : Nat :=
  digits.foldl (fun value c => value * base + digitValue c) 0

def digitRun (isDigit : Char → Bool) : List Char → Option (List Char × List Char)
  | '_' :: c :: cs => if isDigit c then (digitRun isDigit cs).map fun (ds, rest) => (c :: ds, rest) else none
  | '_' :: [] => none
  | c :: cs =>
    if isDigit c then (digitRun isDigit cs).map fun (ds, rest) => (c :: ds, rest) else some ([], c :: cs)
  | [] => some ([], [])

/-- Whether a number can end before the text: no name may follow, save a word that continues an
expression. -/
def numberEnds (cs : List Char) : Bool :=
  match cs with
  | [] => true
  | c :: _ =>
    ["and", "else", "for", "if", "in", "is", "or", "not"].any (fun w => w.toList.isPrefixOf cs)
      || !(c.isAlphanum || c == '_' || 128 ≤ c.toNat)

/-- The double nearest to `digits * 10 ^ exponent`. -/
def decimalValue (digits : List Char) (exponent : Int) : Floating :=
  Decimal.round binary64 ⟨positionalValue 10 digits, exponent⟩

def exponentPart (cs : List Char) : Option (Option Int × List Char) :=
  let read := fun (negative : Bool) (cs : List Char) =>
    (digitRun Char.isDigit cs).map fun (ds, rest) =>
      let value : Int := positionalValue 10 ds
      (some (if negative then -value else value), rest)
  match cs with
  | e :: c :: rest =>
    if e = 'e' || e = 'E' then
      if c.isDigit then read false (c :: rest)
      else if c = '+' || c = '-' then
        match rest with
        | d :: _ => if d.isDigit then read (c = '-') rest else none
        | [] => none
      else some (none, cs)
    else some (none, cs)
  | _ => some (none, cs)

def fractionPart : List Char → Option (Option (List Char) × List Char)
  | '.' :: '_' :: rest => some (some [], '_' :: rest)
  | '.' :: rest => (digitRun Char.isDigit rest).map fun (ds, rest) => (some ds, rest)
  | cs => some (none, cs)

/-- A number without a fraction or an exponent is an integer, which starts with a zero only if it is zero. -/
def realLiteral (whole : List Char) (zeros : Bool) (fraction : Option (List Char)) (exponent : Option Int)
    (value : Floating) : Option Literal :=
  if fraction.isSome || exponent.isSome then some (.float value)
  else if zeros then if whole.all (· == '0') then some (.int 0) else none
  else if digitLimit < whole.length then none
  else some (.int (positionalValue 10 whole))

def afterInteger (whole : List Char) (zeros : Bool) (cs : List Char) : Option (Literal × List Char) :=
  (fractionPart cs).bind fun (fraction, cs) => (exponentPart cs).bind fun (exponent, cs) =>
    let digits := fraction.getD []
    let value := decimalValue (whole ++ digits) (exponent.getD 0 - digits.length)
    if cs.head? = some 'j' || cs.head? = some 'J' then some (.imaginary value, cs.tail)
    else (realLiteral whole zeros fraction exponent value).map fun literal => (literal, cs)

def basedInteger (base : Nat) (isDigit : Char → Bool) (cs : List Char) : Option (Literal × List Char) := do
  let (ds, rest) ← digitRun isDigit cs
  if ds.isEmpty then none
  match rest with
  | c :: _ => if c.isDigit then none else pure ()
  | [] => pure ()
  return (.int (positionalValue base ds), rest)

def numberPart? : List Char → Option (Literal × List Char)
  | '0' :: c :: rest =>
    if c = 'x' || c = 'X' then basedInteger 16 isHexDigit rest
    else if c = 'o' || c = 'O' then basedInteger 8 (fun d => '0' ≤ d && d ≤ '7') rest
    else if c = 'b' || c = 'B' then basedInteger 2 (fun d => d == '0' || d == '1') rest
    else (digitRun Char.isDigit ('0' :: c :: rest)).bind fun (ds, rest) => afterInteger ds true rest
  | '.' :: rest => afterInteger [] false ('.' :: rest)
  | cs => (digitRun Char.isDigit cs).bind fun (ds, rest) => afterInteger ds (ds.head? == some '0') rest

def number? (cs : List Char) : Option (Literal × List Char) := (numberPart? cs).filter (numberEnds ·.2)

/-! ### Strings -/

def marksOf (letters : List Char) : Option StringMarks :=
  match letters.map Char.toLower with
  | [] => some {}
  | ['b'] => some ⟨true, false, false, false⟩
  | ['r'] => some ⟨false, true, false, false⟩
  | ['f'] => some ⟨false, false, true, false⟩
  | ['u'] => some ⟨false, false, false, letters == ['u']⟩
  | ['b', 'r'] | ['r', 'b'] => some ⟨true, true, false, false⟩
  | ['f', 'r'] | ['r', 'f'] => some ⟨false, true, true, false⟩
  | _ => none

/-- The text up to the closing quote, and what follows it. A string with short quotes stays on its
line; a backslash keeps the character after it. -/
def stringEnd (quote : Char) (long : Bool) : List Char → Option (List Char × List Char)
  | [] => none
  | '\\' :: c :: cs => (stringEnd quote long cs).map fun (body, rest) => ('\\' :: c :: body, rest)
  | c :: cs =>
    if c = quote then
      if long then
        match cs with
        | a :: b :: rest =>
          if a = quote && b = quote then some ([], rest)
          else (stringEnd quote long cs).map fun (body, rest) => (c :: body, rest)
        | _ => none
      else some ([], cs)
    else if c = '\n' && !long then none
    else (stringEnd quote long cs).map fun (body, rest) => (c :: body, rest)

def string? (marks : StringMarks) : List Char → Option (Token × List Char)
  | q :: cs =>
    if q = '\'' || q = '"' then
      match cs with
      | a :: b :: rest =>
        if a = q && b = q then
          (stringEnd q true rest).map fun (body, rest) => (.string marks body, rest)
        else (stringEnd q false cs).map fun (body, rest) => (.string marks body, rest)
      | cs => (stringEnd q false cs).map fun (body, rest) => (.string marks body, rest)
    else none
  | [] => none

/-! ### Names and operators -/

def keywords : List String :=
  ["False", "None", "True", "and", "as", "assert", "async", "await", "break", "class", "continue",
    "def", "del", "elif", "else", "except", "finally", "for", "from", "global", "if", "import", "in",
    "is", "lambda", "nonlocal", "not", "or", "pass", "raise", "return", "try", "while", "with", "yield"]

/-- The token of a word. Only the plain writing of a reserved word is reserved; another writing with the
same normal form is a name. -/
def ofWord (word : String) : Token :=
  if keywords.contains word then .word word else .name (String.ofList (normalForm word.toList))

def isWordChar (c : Char) : Bool := c.isAlphanum || c == '_' || 128 ≤ c.toNat

def word? (cs : List Char) : Option (Token × List Char) :=
  let word := cs.takeWhile isWordChar
  let rest := cs.dropWhile isWordChar
  let quoted := rest.head? = some '\'' || rest.head? = some '"'
  match if quoted then marksOf word else none with
  | some marks => string? marks rest
  | none => if isIdentifier (String.ofList word) then some (ofWord (String.ofList word), rest) else none

/-- The number, string or word that a text starts with, if it does: the token and what follows it, or nothing where it
is malformed. -/
def lexeme? : List Char → Option (Option (Token × List Char))
  | [] => none
  | c :: cs =>
    if c.isDigit || (c = '.' && (cs.head?.map Char.isDigit).getD false) then
      some ((number? (c :: cs)).map fun (value, rest) => (.number value, rest))
    else if c = '\'' || c = '"' then some (string? {} (c :: cs))
    else if isWordChar c then some (word? (c :: cs))
    else none

def operators : List String :=
  ["**=", "//=", ">>=", "<<=", "...",
    "**", "//", ">>", "<<", "<=", ">=", "==", "!=", "->", "+=", "-=", "*=", "/=", "%=", "&=", "|=",
    "^=", "@=", ":=",
    "+", "-", "*", "/", "%", "@", "&", "|", "^", "~", "<", ">", "(", ")", "[", "]", "\x7b", "\x7d",
    ",", ":", ".", ";", "="]

def closing? : String → Option String
  | "(" => some ")"
  | "[" => some "]"
  | "\x7b" => some "\x7d"
  | _ => none

/-! ### Lines -/

/-- Where the scanner stands: the open indentations, innermost first, with their width counted with
tabs to eights and with tabs as one; and the brackets still to be closed. -/
structure Place where
  indents : List (Nat × Nat) := []
  brackets : List String := []

/-- The width of the indentation at the front of a line, and the rest of the line. A backslash may end
the line; then the width before the first backslash counts, unless it is zero. -/
def indentation : Nat → Nat → Nat → List Char → Option (Nat × Nat × List Char)
  | width, narrow, held, ' ' :: cs => indentation (width + 1) (narrow + 1) held cs
  | width, narrow, held, '\t' :: cs => indentation ((width / 8 + 1) * 8) (narrow + 1) held cs
  | _, _, held, '\x0c' :: cs => indentation 0 0 held cs
  | width, narrow, held, '\\' :: '\n' :: c :: cs =>
    indentation width narrow (if held = 0 then width else held) (c :: cs)
  | _, _, _, '\\' :: _ => none
  | width, narrow, held, cs => some (if held = 0 then (width, narrow, cs) else (held, held, cs))

def maxIndents : Nat := 99

def maxBrackets : Nat := 200

def closeIndents (width narrow : Nat) : List (Nat × Nat) → Except SyntaxFault (List (Nat × Nat) × Nat)
  | [] => if width ≠ 0 then .error .indentation else if narrow ≠ 0 then .error .tabs else .ok ([], 0)
  | (w, n) :: rest =>
    if w = width then (if n = narrow then .ok ((w, n) :: rest, 0) else .error .tabs)
    else if width < w then (closeIndents width narrow rest).map fun (open_, k) => (open_, k + 1)
    else .error .indentation

def indentTokens (width narrow : Nat) (indents : List (Nat × Nat)) :
    Except SyntaxFault (List Token × List (Nat × Nat)) :=
  let (w, n) := indents.headD (0, 0)
  if w < width then
    if maxIndents ≤ indents.length then .error .indentation
    else if narrow ≤ n then .error .tabs
    else .ok ([.indent], (width, narrow) :: indents)
  else (closeIndents width narrow indents).map fun (left, k) => (List.replicate k .dedent, left)

structure Scanned where
  tokens : List Token
  fault : Option SyntaxFault
deriving Inhabited

def Scanned.stop (fault : SyntaxFault) : Scanned := ⟨[], some fault⟩

def Scanned.after (front : List Token) (s : Scanned) : Scanned := ⟨front ++ s.tokens, s.fault⟩

/-- The tokens of a text from the given place. `fresh` is set at the start of a line, and `pending`
when the line already has tokens. The fuel bounds the number of steps by the length of the text. -/
def scan : Nat → Place → Bool → Bool → List Char → Scanned
  | 0, _, _, _, _ => .stop .invalid
  | fuel + 1, place, true, _, cs =>
    match indentation 0 0 0 cs with
    | none => .stop .invalid
    | some (_, _, []) => scan fuel place false false []
    | some (_, _, '\n' :: rest) => scan fuel place true false rest
    | some (_, _, '#' :: rest) => scan fuel place true false ((rest.dropWhile (· != '\n')).drop 1)
    | some (width, narrow, rest) =>
      match indentTokens width narrow place.indents with
      | .ok (tokens, indents) => (scan fuel ⟨indents, place.brackets⟩ false false rest).after tokens
      | .error fault => .stop fault
  | _ + 1, place, false, pending, [] =>
    if place.brackets.isEmpty then
      ⟨(if pending then [.newline] else []) ++ List.replicate place.indents.length .dedent, none⟩
    else .stop .invalid
  | fuel + 1, place, false, pending, c :: cs =>
    if c = ' ' || c = '\t' || c = '\x0c' then scan fuel place false pending cs
    else if c = '\n' then
      if place.brackets.isEmpty then
        (scan fuel place true false cs).after (if pending then [.newline] else [])
      else scan fuel place false pending cs
    else if c = '#' then scan fuel place false pending (cs.dropWhile (· != '\n'))
    else if c = '\\' then
      match cs with
      | '\n' :: d :: rest => scan fuel place false pending (d :: rest)
      | _ => .stop .invalid
    else match lexeme? (c :: cs) with
    | some (some (token, rest)) => (scan fuel place false true rest).after [token]
    | some none => .stop .malformed
    | none =>
      match operators.find? fun o => o.toList.isPrefixOf (c :: cs) with
      | none => .stop (if c.toNat < 33 || c == '\x7f' then .malformed else .invalid)
      | some o =>
        let rest := (c :: cs).drop o.length
        match closing? o with
        | some close =>
          if place.brackets.length < maxBrackets then
            (scan fuel ⟨place.indents, close :: place.brackets⟩ false true rest).after [.op o]
          else .stop .malformed
        | none =>
          if o = ")" || o = "]" || o = "\x7d" then
            match place.brackets with
            | close :: open_ =>
              if close = o then (scan fuel ⟨place.indents, open_⟩ false true rest).after [.op o]
              else .stop .malformed
            | [] => .stop .malformed
          else (scan fuel place false true rest).after [.op o]

def normalLines : List Char → List Char
  | '\r' :: '\n' :: cs => '\n' :: normalLines cs
  | '\r' :: cs => '\n' :: normalLines cs
  | c :: cs => c :: normalLines cs
  | [] => []

end Token

def scanText (text : String) : Token.Scanned :=
  let cs := Token.normalLines text.toList
  Token.scan (2 * cs.length + 2) {} true false cs

def tokens? (text : String) : Option (List Token) :=
  let scanned := scanText text
  if scanned.fault.isNone then some scanned.tokens else none

end Bladewright.Host
