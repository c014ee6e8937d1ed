import Bladewright.Host.Token
import Bladewright.Text.Lines

/-!
Numbers that a text holds: with blanks around them, a sign, and underscores between digits.
-/
namespace Bladewright.Host

open Bladewright.Numeral

def signAndRest : List Char → Bool × List Char
  | '-' :: cs => (true, cs)
  | '+' :: cs => (false, cs)
  | cs => (false, cs)

def wholeText? (s : String) : Option Int :=
  let (negative, cs) := signAndRest (Text.trim s).toList
  match cs, Token.digitRun Char.isDigit cs with
  | c :: _, some (digits, []) =>
    if !c.isDigit || Numeral.digitLimit < digits.length then none
    else
      let n : Int := Token.positionalValue 10 digits
      some (if negative then -n else n)
  | _, _ => none

def digitsAt (cs : List Char) : Option (List Char × List Char) :=
  if cs.head? == some '_' then none else Token.digitRun Char.isDigit cs

def floatingSize? (cs : List Char) : Option Floating :=
  match String.ofList (cs.map Char.toLower) with
  | "inf" | "infinity" => some (.infinite false)
  | "nan" => some .nan
  | _ => do
    let (whole, cs) ← digitsAt cs
    let (fraction, cs) ← match cs with
      | '.' :: cs => digitsAt cs
      | cs => some ([], cs)
    if whole.isEmpty && fraction.isEmpty then none
    match ← Token.exponentPart cs with
    | (exponent, []) => return Token.decimalValue (whole ++ fraction) (exponent.getD 0 - fraction.length)
    | _ => none

def floatingText? (s : String) : Option Floating :=
  let (negative, cs) := signAndRest (Text.trim s).toList
  (floatingSize? cs).map fun x => if negative then x.neg else x

end Bladewright.Host
