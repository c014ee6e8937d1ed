/-!
Names of characters in common use: Latin and Greek letters, punctuation, arrows and operators. Ideographs are named by
code point.
-/
namespace Bladewright.Text

/-- Symbols and letters, each with its name after it. -/
def symbolNames : String :=
  " SPACE|*ASTERISK|+PLUS SIGN|,COMMA|-HYPHEN-MINUS|.FULL STOP|~TILDE|_LOW LINE|\u00a0NO-BREAK SPACE|" ++
  "§SECTION SIGN|©COPYRIGHT SIGN|°DEGREE SIGN|±PLUS-MINUS SIGN|²SUPERSCRIPT TWO|³SUPERSCRIPT THREE|·MIDDLE DOT|" ++
  "½VULGAR FRACTION ONE HALF|×MULTIPLICATION SIGN|÷DIVISION SIGN|–EN DASH|—EM DASH|‘LEFT SINGLE QUOTATION MARK|" ++
  "’RIGHT SINGLE QUOTATION MARK|“LEFT DOUBLE QUOTATION MARK|”RIGHT DOUBLE QUOTATION MARK|†DAGGER|•BULLET|" ++
  "…HORIZONTAL ELLIPSIS|′PRIME|″DOUBLE PRIME|€EURO SIGN|™TRADE MARK SIGN|←LEFTWARDS ARROW|↑UPWARDS ARROW|" ++
  "→RIGHTWARDS ARROW|↓DOWNWARDS ARROW|↔LEFT RIGHT ARROW|⇒RIGHTWARDS DOUBLE ARROW|⇔LEFT RIGHT DOUBLE ARROW|" ++
  "∀FOR ALL|∂PARTIAL DIFFERENTIAL|∃THERE EXISTS|∅EMPTY SET|∇NABLA|∈ELEMENT OF|∉NOT AN ELEMENT OF|" ++
  "∏N-ARY PRODUCT|∑N-ARY SUMMATION|−MINUS SIGN|∓MINUS-OR-PLUS SIGN|∘RING OPERATOR|√SQUARE ROOT|" ++
  "∝PROPORTIONAL TO|∞INFINITY|∠ANGLE|∧LOGICAL AND|∨LOGICAL OR|∩INTERSECTION|∪UNION|∫INTEGRAL|≈ALMOST EQUAL TO|" ++
  "≠NOT EQUAL TO|≡IDENTICAL TO|≤LESS-THAN OR EQUAL TO|≥GREATER-THAN OR EQUAL TO|⊂SUBSET OF|⊃SUPERSET OF|" ++
  "⊆SUBSET OF OR EQUAL TO|⊇SUPERSET OF OR EQUAL TO|⊕CIRCLED PLUS|⊗CIRCLED TIMES|⋅DOT OPERATOR|■BLACK SQUARE|" ++
  "●BLACK CIRCLE|☃SNOWMAN|ÆLATIN CAPITAL LETTER AE|æLATIN SMALL LETTER AE|ØLATIN CAPITAL LETTER O WITH STROKE|" ++
  "øLATIN SMALL LETTER O WITH STROKE|ßLATIN SMALL LETTER SHARP S|ÐLATIN CAPITAL LETTER ETH|" ++
  "ðLATIN SMALL LETTER ETH|ÞLATIN CAPITAL LETTER THORN|þLATIN SMALL LETTER THORN"

/-- The names of the Greek letters in the order of their code points. -/
def greekNames : List String :=
  ["ALPHA", "BETA", "GAMMA", "DELTA", "EPSILON", "ZETA", "ETA", "THETA", "IOTA", "KAPPA", "LAMDA", "MU", "NU", "XI",
    "OMICRON", "PI", "RHO", "FINAL SIGMA", "SIGMA", "TAU", "UPSILON", "PHI", "CHI", "PSI", "OMEGA"]

def latinNames : List String := "ABCDEFGHIJKLMNOPQRSTUVWXYZ".toList.map fun c => String.ofList [c]

/-- Alphabets of named letters: how their names start, the letters, and the code point of the first. -/
def alphabetNames : List (String × List String × Nat) :=
  [ ("LATIN CAPITAL LETTER ", latinNames, 0x41), ("LATIN SMALL LETTER ", latinNames, 0x61),
    ("GREEK CAPITAL LETTER ", greekNames, 0x391), ("GREEK SMALL LETTER ", greekNames, 0x3b1) ]

def ideographRanges : List (Nat × Nat) :=
  [ (0x3400, 0x4dbf), (0x4e00, 0x9fff), (0x20000, 0x2a6df), (0x2a700, 0x2b738), (0x2b740, 0x2b81d), (0x2b820, 0x2cea1),
    (0x2ceb0, 0x2ebe0), (0x30000, 0x3134a) ]

def symbol? (name : String) : Option Nat :=
  (symbolNames.splitOn "|").findSome? fun entry => match entry.toList with
    | c :: rest => if String.ofList rest = name then some c.toNat else none
    | [] => none

def letter? (name : String) : Option Nat :=
  -- There is no capital of the final form of a letter.
  if name = "GREEK CAPITAL LETTER FINAL SIGMA" then none
  else alphabetNames.findSome? fun (start, letters, first) =>
    (letters.findIdx? fun letter => start ++ letter = name).map (first + ·)

def spelledCode? (text : List Char) : Option Nat :=
  let digit := fun (c : Char) => c.isDigit || ('A' ≤ c && c ≤ 'F')
  if (text.length = 4 || text.length = 5) && text.all digit then
    some (text.foldl (fun n c => 16 * n + if c.isDigit then c.toNat - 48 else c.toNat - 55) 0)
  else none

/-- The character with a name. Case does not matter, save in the names of ideographs. -/
def namedCharacter? (name : String) : Option Char :=
  let ideograph := "CJK UNIFIED IDEOGRAPH-".toList
  let code :=
    if ideograph.isPrefixOf name.toList then
      (spelledCode? (name.toList.drop ideograph.length)).filter fun code =>
        ideographRanges.any fun (first, last) => first ≤ code && code ≤ last
    else
      let name := name.map Char.toUpper
      (symbol? name).orElse fun _ => letter? name
  code.map Char.ofNat

end Bladewright.Text
