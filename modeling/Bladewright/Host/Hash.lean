import Bladewright.Host.Comparison

/-!
Hashes of keys, and the order in which a set of keys lists its elements.
-/
namespace Bladewright.Host

open Bladewright.Numeral

namespace Value

mutual

/-- The hash of a value. A key whose value does not decide its hash has none that could be told. -/
def hash : Value → Except Fault (Option Int)
  | tuple es => do return (← hashes es).map tupleHash
  | kvectorType g d => do
    match ← hash g, ← hash d with
    | some a, some b => return some (tupleHash [a, b])
    | _, _ => return Option.none
  | complex re im => return do return complexHash (← re.hash?) (← im.hash?)
  | v => match v.number? with
    | some x => return x.hash?
    | Option.none => if v.isKey then return Option.none else throw .typeError

def hashes : List Value → Except Fault (Option (List Int))
  | [] => return some []
  | e :: es => do
    let first ← hash e
    let rest ← hashes es
    match first, rest with
    | some h, some hs => return some (h :: hs)
    | _, _ => return Option.none

end

def listed (elements : List Value) (constant : Bool) : Except Fault (List Value) := do
  let hashed ← elements.mapM fun e => return (wordOf ((← e.hash).getD 0), e)
  return SetOrder.ofHashes hashed constant

end Value

end Bladewright.Host
