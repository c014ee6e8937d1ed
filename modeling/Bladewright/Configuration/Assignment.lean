import Bladewright.Configuration

/-!
Settings as assignments: a path of names, an equals sign and a value, which is a literal, a list of words, or a text
as it stands.
-/
namespace Bladewright.Configuration

open Bladewright.Host

def cutAt (mark : Char) (cs : List Char) : List (List Char) :=
  cs.foldr (fun c pieces =>
    if c = mark then [] :: pieces
    else match pieces with
      | [] => [[c]]
      | piece :: rest => (c :: piece) :: rest) [[]]

def readWords? (cs : List Char) : Option Datum :=
  match cs, cs.getLast? with
  | '[' :: rest, some ']' =>
    some (.list ((cutAt ',' rest.dropLast).map fun piece => .str (Text.trim (String.ofList piece))))
  | _, _ => none

def readValue (s : String) : Datum :=
  match s with
  | "null" => .none
  | "true" => .bool true
  | "false" => .bool false
  | _ => match Datum.read s with
    | .ok value => value
    | .error _ => (readWords? s.toList).getD (.str s)

def under : List String → Datum → Datum
  | [], value => value
  | name :: path, value => Setting.mapping [(name, under path value)]

def readAssignment? (s : String) : Option Datum :=
  let cs := s.toList
  let path := cs.takeWhile (· ≠ '=')
  match cs.dropWhile (· ≠ '=') with
  | _ :: value => some (under ((cutAt '.' path).map String.ofList) (readValue (String.ofList value)))
  | [] => none

/-- The standard configuration with assignments put on top, or the first text that is no assignment. -/
def ofAssignments (texts : List String) : Except String Configuration :=
  texts.foldlM (fun c s => match (readAssignment? s).map c.override with
    | some (.ok changed) => return changed
    | _ => throw s) standard

end Bladewright.Configuration
