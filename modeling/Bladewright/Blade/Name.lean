import Bladewright.Blade.Basic
import Bladewright.Numeral.Decimal

/-!
Names of basis blades: `e12`, or `e_3_10` when an index has more than one digit. Indices in names count from one.
-/
namespace Bladewright.Blade

/-- A name with one digit for each index. -/
def compactName (numbers : List Int) : String := "e" ++ String.join (numbers.map toString)

/-- A name with an underscore before each index. -/
def separatedName (numbers : List Int) : String := "e_" ++ "_".intercalate (numbers.map toString)

/-- The name of a blade. Its indices are counted from one, and then each of them has to be a digit to stand alone. -/
def name (blade : Nat) : String :=
  let numbers := (indices blade).map fun i => Int.ofNat (i + 1)
  if numbers.isEmpty then "1" else if numbers.all (· < 10) then compactName numbers else separatedName numbers

/-- The text of a product of basis vectors, in the order written. Here the indices that count from zero are compared. -/
def productText (factors : List Int) : String :=
  if factors.all (· < 9) then compactName (factors.map (· + 1)) else separatedName (factors.map (· + 1))

def isIndexDigit (c : Char) : Bool := '1' ≤ c && c ≤ '9'

def digitValue (c : Char) : Nat := c.toNat - '0'.toNat

def numeralValue (digits : List Char) : Nat := digits.foldl (fun n c => 10 * n + digitValue c) 0

def cutGroups : List Char → List (List Char)
  | [] => [[]]
  | c :: cs => match cutGroups cs with
    | [] => []
    | group :: groups => if c = '_' then [] :: group :: groups else (c :: group) :: groups

def isIndexNumeral : List Char → Bool
  | [] => false
  | c :: cs => isIndexDigit c && cs.all Char.isDigit

def readFactors? : List Char → Option (List Nat)
  | '_' :: cs =>
    let groups := cutGroups cs
    if groups.all isIndexNumeral then some (groups.map fun g => numeralValue g - 1) else none
  | [] => none
  | cs => if cs.all isIndexDigit then some (cs.map fun c => digitValue c - 1) else none

def dropFinalBreak (cs : List Char) : List Char :=
  if cs.getLast? = some '\n' then cs.dropLast else cs

/-- The factors that a name denotes, in the order written. One line break at the end is allowed. -/
def parseName? (s : String) : Option (List Nat) :=
  match dropFinalBreak s.toList with
  | 'e' :: cs => readFactors? cs
  | _ => none

/-- Reads a name, whose numerals may have so many digits only. -/
def parseName (s : String) : Except IndexError (Option (List Nat)) :=
  match parseName? s with
  | none => return none
  | some factors =>
    if factors.all fun i => Numeral.digitCount (i + 1) ≤ Numeral.digitLimit then return some factors
    else throw .tooManyDigits

end Bladewright.Blade
