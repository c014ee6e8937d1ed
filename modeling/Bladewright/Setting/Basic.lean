import Bladewright.Host.Datum

/-!
Settings as plain data: trees of mappings, lists and values, put on top of one another entry by entry. A value of
three question marks is yet to be given.
-/
namespace Bladewright.Setting

open Bladewright.Host

inductive Fault where
  | unlike
  | missing
  | malformed
  | unknownKey
  | unknownFunction
  | toMissing
  | circular
deriving DecidableEq, Repr, Inhabited

def Fault.name : Fault → String
  | .unlike => "TypeError"
  | .missing => "MissingMandatoryValue"
  | .malformed => "GrammarParseError"
  | .unknownKey => "InterpolationKeyError"
  | .unknownFunction => "UnsupportedInterpolationType"
  | .toMissing => "InterpolationToMissingValueError"
  | .circular => "InterpolationResolutionError"

def mapping (entries : List (String × Datum)) : Datum :=
  .mapping (entries.map fun (name, _) => .str name) (entries.map (·.2))

def entries : Datum → List (String × Datum)
  | .mapping keys values => (keys.zip values).filterMap fun
    | (.str name, value) => some (name, value)
    | _ => none
  | _ => []

def isMissing : Datum → Bool
  | .str s => s == "???"
  | _ => false

mutual

/-- A setting put on top of another: mappings are merged entry by entry, one that is yet to be given
changes nothing, all else replaces. -/
def merge (base : Datum) : Datum → Except Fault Datum
  | .mapping keys values => match base with
    | .mapping .. => return mapping (← mergeEntries (entries base) keys values)
    | .list _ => throw .unlike
    | _ => return .mapping keys values
  | .list elements => match base with
    | .mapping .. => throw .unlike
    | _ => return .list elements
  | value => return if isMissing value then base else value

def mergeEntries (base : List (String × Datum)) :
    List Datum → List Datum → Except Fault (List (String × Datum))
  | .str name :: keys, value :: values => match base.lookup name with
    | some old => do
      let merged ← merge old value
      mergeEntries (base.map fun (n, v) => (n, if n = name then merged else v)) keys values
    | none => mergeEntries (base ++ [(name, value)]) keys values
  | _, _ => return base

end

end Bladewright.Setting
