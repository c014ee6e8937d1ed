import Bladewright.Text.Classes

/-!
Lines of a text: trimming of blanks at both ends, and removal of the indentation that all lines share.
-/
namespace Bladewright.Text

def trim (s : String) : String :=
  String.ofList (((s.toList.dropWhile isBlank).reverse.dropWhile isBlank).reverse)

def splitLines (cs : List Char) : List (List Char) :=
  cs.foldr (fun c pieces => match c, pieces with
    | '\n', pieces => [] :: pieces
    | c, [] => [[c]]
    | c, line :: rest => (c :: line) :: rest) [[]]

def joinLines (lines : List (List Char)) : List Char := ['\n'].intercalate lines

def isIndent (c : Char) : Bool := c == ' ' || c == '\t'

def commonStart : List Char → List Char → List Char
  | a :: as, b :: bs => if a = b then a :: commonStart as bs else []
  | _, _ => []

/-- The indentation shared by all lines that hold more than indentation; lines that hold nothing
else are emptied. -/
def dedent (s : String) : String :=
  let lines := (splitLines s.toList).map fun line => if line.all isIndent then [] else line
  let margins := (lines.filter (· ≠ [])).map (·.takeWhile isIndent)
  let margin := match margins with
    | [] => []
    | first :: rest => rest.foldl commonStart first
  String.ofList (joinLines (lines.map fun line => if line.isEmpty then line else line.drop margin.length))

end Bladewright.Text
