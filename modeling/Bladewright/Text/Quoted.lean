import Bladewright.Text.Classes

/-!
Quoted text: single quotes unless the text holds one and no double quote, with control and other unprintable
characters written as escapes.
-/
namespace Bladewright.Text

def hexDigit (n : Nat) : Char := if n < 10 then Char.ofNat (48 + n) else Char.ofNat (87 + n)

def hex : Nat → Nat → List Char
  | 0, _ => []
  | width + 1, n => hex width (n / 16) ++ [hexDigit (n % 16)]

/-- How far above its code half of a surrogate pair is kept: in a plane that holds no characters. -/
def surrogateShift : Nat := 0xd0000

def isSurrogate (c : Char) : Bool := surrogateShift + 0xd800 ≤ c.toNat && c.toNat < surrogateShift + 0xe000

/-- The character with a code; half of a surrogate pair has a place of its own. -/
def charOfCode? (code : Nat) : Option Char :=
  if code.isValidChar then some (Char.ofNat code)
  else if code < 0x10000 then some (Char.ofNat (surrogateShift + code))
  else none

def codeOf (c : Char) : Nat := if isSurrogate c then c.toNat - surrogateShift else c.toNat

def escapeSequence (c : Char) : List Char :=
  let code := codeOf c
  if c = '\\' then ['\\', '\\']
  else if c = '\n' then ['\\', 'n']
  else if c = '\t' then ['\\', 't']
  else if c = '\r' then ['\\', 'r']
  else if code < 0x100 then '\\' :: 'x' :: hex 2 code
  else if code < 0x10000 then '\\' :: 'u' :: hex 4 code
  else '\\' :: 'U' :: hex 8 code

def escape (quote c : Char) : List Char :=
  if c = quote then ['\\', c]
  else if c = '\\' || !isPrintable c then escapeSequence c
  else [c]

def quoteFor (cs : List Char) : Char := if '\'' ∈ cs ∧ '"' ∉ cs then '"' else '\''

def quotedBody (s : String) : List Char := s.toList.flatMap (escape (quoteFor s.toList))

def quoted (s : String) : String :=
  let quote := quoteFor s.toList
  String.ofList (quote :: quotedBody s ++ [quote])

def quotedBytes (bytes : List UInt8) : String :=
  let chars := bytes.map fun b => Char.ofNat b.toNat
  let quote := quoteFor chars
  let body := chars.flatMap fun c =>
    if c = quote then ['\\', c]
    else if c = '\\' || c.toNat < 32 || 127 ≤ c.toNat then escapeSequence c
    else [c]
  String.ofList ('b' :: quote :: body ++ [quote])

end Bladewright.Text
