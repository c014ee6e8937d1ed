import Bladewright.Host.Datum
import Bladewright.Signature.Basic
import Bladewright.Text.Lines

/-!
Signatures from data: an integer, a collection of one to three integers, or the text of either.
-/
namespace Bladewright

open Bladewright.Host

namespace Signature

inductive Count where
  | positive
  | negative
  | degenerate
deriving DecidableEq, Repr

def Count.name : Count → String
  | .positive => "positive"
  | .negative => "negative"
  | .degenerate => "degenerate"

inductive SpecError where
  | notInteger (count : Count) (value : Datum)
  | belowZero (count : Count) (value : Int)
  | unreadable (text : String)
  | wrongLength (length : Nat)
  | unsuitable (value : Datum)
  | failed (cause : Datum.ReadError)

/-- The message, if there is one: what it quotes must be writable. -/
def SpecError.message? : SpecError → Option String
  | .notInteger count value =>
    if value.isWritable then some (count.name ++ " must be an integer, got " ++ value.text) else none
  | .belowZero count value =>
    if Numeral.isWritable value then some (count.name ++ " must be non-negative, got " ++ toString value) else none
  | .unreadable text => some ("Invalid signature literal " ++ Text.quoted text)
  | .wrongLength length => some ("Signature must have 1, 2 or 3 entries, got " ++ toString length)
  | .unsuitable value => if value.isWritable then some ("Cannot interpret " ++ value.text ++ " as a signature") else none
  | .failed _ => none

def readCount (count : Count) : Datum → Except SpecError Nat
  | .int (.ofNat n) => return n
  | .int n => throw (.belowZero count n)
  | value => throw (.notInteger count value)

def ofCounts (counts : List Datum) : Except SpecError Signature :=
  match counts with
  | [p] => return ⟨← readCount .positive p, 0, 0⟩
  | [p, q] => return ⟨← readCount .positive p, ← readCount .negative q, 0⟩
  | [p, q, r] =>
    return ⟨← readCount .positive p, ← readCount .negative q, ← readCount .degenerate r⟩
  | _ => throw (.wrongLength counts.length)

def ofDatum (value : Datum) : Except SpecError Signature :=
  match value with
  | .int _ => ofCounts [value]
  | _ => match value.elements? with
    | some counts => ofCounts counts
    | none => throw (.unsuitable value)

/-- A signature from a value; the text of a literal stands for its value. -/
def ofSpec : Datum → Except SpecError Signature
  | .str s => match Datum.read (Text.trim s) with
    | .ok value => ofDatum value
    | .error .malformed => throw (.unreadable s)
    | .error cause => throw (.failed cause)
  | value => ofDatum value

end Signature

end Bladewright
