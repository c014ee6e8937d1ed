import Bladewright.Host.Token
import Bladewright.Text.CharacterNames
import Bladewright.Text.Quoted

/-!
What stands between the quotes of a string: escape sequences, and the fields of formatted strings.
-/
namespace Bladewright.Host

namespace StringLiteral

def hexValue? (count : Nat) (cs : List Char) : Option Nat :=
  let digits := cs.take count
  if digits.length = count ∧ digits.all Token.isHexDigit then some (Token.positionalValue 16 digits) else none

def simpleEscape? : Char → Option (List Char)
  | '\n' => some []
  | '\\' => some ['\\']
  | '\'' => some ['\'']
  | '"' => some ['"']
  | 'a' => some ['\x07']
  | 'b' => some ['\x08']
  | 'f' => some ['\x0c']
  | 'n' => some ['\n']
  | 'r' => some ['\r']
  | 't' => some ['\t']
  | 'v' => some ['\x0b']
  | _ => none

def isOctal (c : Char) : Bool := '0' ≤ c && c ≤ '7'

def named? : List Char → Option (Char × List Char)
  | '\x7b' :: cs =>
    let name := cs.takeWhile (· != '\x7d')
    match cs.drop name.length with
    | _ :: rest => if name.isEmpty then none else
      (Bladewright.Text.namedCharacter? (String.ofList name)).map fun c => (c, rest)
    | [] => none
  | _ => none

/-- The text with its escape sequences resolved. An unknown escape stands for itself; byte strings
know no escapes by code point or by name. -/
def unescape (bytes : Bool) : Nat → List Char → Option (List Char)
  | 0, _ => none
  | _ + 1, [] => some []
  | fuel + 1, '\\' :: c :: cs =>
    match simpleEscape? c with
    | some chars => (unescape bytes fuel cs).map (chars ++ ·)
    | none =>
      if isOctal c then
        let digits := c :: (cs.take 2).takeWhile isOctal
        let code := Token.positionalValue 8 digits
        match Bladewright.Text.charOfCode? (if bytes then code % 256 else code) with
        | some d => (unescape bytes fuel (cs.drop (digits.length - 1))).map (d :: ·)
        | none => none
      else
        let width := if c = 'x' then 2 else if c = 'u' && !bytes then 4 else if c = 'U' && !bytes then 8 else 0
        if c = 'N' && !bytes then
          match named? cs with
          | some (d, rest) => (unescape bytes fuel rest).map (d :: ·)
          | none => none
        else if width = 0 then (unescape bytes fuel cs).map ('\\' :: c :: ·)
        else
          match (hexValue? width cs).bind Bladewright.Text.charOfCode? with
          | some d => (unescape bytes fuel (cs.drop width)).map (d :: ·)
          | none => none
  | fuel + 1, c :: cs => (unescape bytes fuel cs).map (c :: ·)

def characters? (marks : StringMarks) (body : List Char) : Option (List Char) :=
  if marks.raw then some body else unescape marks.bytes (body.length + 1) body

def bytes? (marks : StringMarks) (body : List Char) : Option (List UInt8) :=
  if body.all (·.toNat < 128) then
    (characters? marks body).map (·.map fun c => UInt8.ofNat c.toNat)
  else none

/-- A piece of a formatted string: text, or a field with the text of its expression, the text shown
before its value, its conversion and the pieces of its format. -/
inductive Piece where
  | text (chars : List Char)
  | field (expression : List Char) (shown : Option (List Char)) (conversion : Option Char)
      (format : Option (List Piece))

/-- The literal text up to the next brace that starts or ends a field; doubled braces stand for one
outside of formats. The braces around the name of a character belong to the text: `inName` is set
between them. -/
def literalText (raw nested : Bool) : Bool → List Char → List Char → Option (List Char × List Char)
  | _, done, [] => some (done.reverse, [])
  | true, done, c :: cs => literalText raw nested (c != '\x7d') (c :: done) cs
  | false, done, '\\' :: 'N' :: c :: cs =>
    if raw then literalText raw nested false ('\\' :: done) ('N' :: c :: cs)
    else literalText raw nested (c == '\x7b') (c :: 'N' :: '\\' :: done) cs
  | false, done, '\\' :: c :: cs =>
    if !raw && c != '\x7b' && c != '\x7d' then literalText raw nested false (c :: '\\' :: done) cs
    else literalText raw nested false ('\\' :: done) (c :: cs)
  | false, done, c :: cs =>
    if c = '\x7b' || c = '\x7d' then
      if nested then some (done.reverse, c :: cs)
      else
        match cs with
        | d :: rest =>
          if d = c then literalText raw nested false (c :: done) rest
          else if c = '\x7b' then some (done.reverse, c :: cs)
          else none
        | [] => if c = '\x7b' then some (done.reverse, c :: cs) else none
    else literalText raw nested false (c :: done) cs

def skipString (quote : Char) (long : Bool) : List Char → List Char → Option (List Char × List Char)
  | _, [] => none
  | done, c :: cs =>
    if c = '\\' then none
    else if c = quote then
      if long then
        match cs with
        | a :: b :: rest =>
          if a = quote && b = quote then some (b :: a :: c :: done, rest)
          else skipString quote long (c :: done) cs
        | _ => none
      else some (c :: done, cs)
    else skipString quote long (c :: done) cs

/-- The text of a field's expression: up to a conversion, a format, an equals sign or the closing
brace outside of brackets and strings. -/
def expressionText : Nat → List Char → List Char → List Char → Option (List Char × List Char)
  | 0, _, _, _ => none
  | _ + 1, _, _, [] => none
  | fuel + 1, brackets, done, c :: cs =>
    if c = '\\' || c = '#' then none
    else if c = '\'' || c = '"' then
      match cs with
      | a :: b :: rest =>
        let (long, start, done) := if a = c && b = c then (true, rest, b :: a :: c :: done) else (false, cs, c :: done)
        match skipString c long done start with
        | some (done, rest) => expressionText fuel brackets done rest
        | none => none
      | _ => none
    else if c = '(' then expressionText fuel (')' :: brackets) (c :: done) cs
    else if c = '[' then expressionText fuel (']' :: brackets) (c :: done) cs
    else if c = '\x7b' then expressionText fuel ('\x7d' :: brackets) (c :: done) cs
    else
      match brackets, cs with
      | [], d :: rest =>
        if d = '=' && (c = '!' || c = '=' || c = '<' || c = '>') then
          expressionText fuel [] (d :: c :: done) rest
        else if c = '!' || c = ':' || c = '\x7d' || c = '=' then some (done.reverse, c :: cs)
        else if c = ')' || c = ']' then none
        else expressionText fuel [] (c :: done) cs
      | [], [] => if c = '!' || c = ':' || c = '\x7d' || c = '=' then some (done.reverse, c :: cs) else none
      | close :: rest, cs =>
        if c = ')' || c = ']' || c = '\x7d' then
          if c = close then expressionText fuel rest (c :: done) cs else none
        else expressionText fuel (close :: rest) (c :: done) cs

/-- The pieces of a formatted string. `depth` is how deep fields may still be nested in formats; a
nested format ends at a closing brace, which is left in place. -/
def pieces : Nat → Nat → Bool → Bool → List Char → Option (List Piece × List Char)
  | 0, _, _, _, _ => none
  | fuel + 1, depth, raw, nested, cs => do
    let (text, rest) ← literalText raw nested false [] cs
    let chars ← if raw then some text else unescape false (text.length + 1) text
    let before := if chars.isEmpty then [] else [Piece.text chars]
    match rest with
    | '\x7b' :: inside =>
      let (expression, rest) ← expressionText (inside.length + 1) [] [] inside
      if depth = 0 || expression.all Bladewright.Text.isPlainBlank then none
      let (shown, rest) := match rest with
        | '=' :: after =>
          let blanks := after.takeWhile Bladewright.Text.isPlainBlank
          (some (expression ++ '=' :: blanks), after.drop blanks.length)
        | rest => (none, rest)
      let (conversion, rest) ← match rest with
        | '!' :: c :: after =>
          if c = 's' || c = 'r' || c = 'a' then some (some c, after) else none
        | '!' :: [] => none
        | rest => some (none, rest)
      let (format, rest) ← match rest with
        | ':' :: after => do
          let (inner, rest) ← pieces fuel (depth - 1) raw true after
          some (some inner, rest)
        | rest => some (none, rest)
      match rest with
      | '\x7d' :: rest =>
        let (after, rest) ← pieces fuel depth raw nested rest
        return (before ++ .field expression shown conversion format :: after, rest)
      | _ => none
    | rest => return (before, rest)

def pieces? (marks : StringMarks) (body : List Char) : Option (List Piece) :=
  match pieces (body.length + 2) 2 marks.raw false body with
  | some (found, []) => some found
  | _ => none

end StringLiteral

end Bladewright.Host
