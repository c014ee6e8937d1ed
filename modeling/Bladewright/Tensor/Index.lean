import Bladewright.Tensor.Basic

/-!
Parts of sequences and tensors: single positions, counted from the end if negative, and slices.
-/
namespace Bladewright

open Bladewright.Host

def position? (length : Nat) (i : Int) : Option Nat :=
  let i := if i < 0 then i + length else i
  if 0 ≤ i && i < (length : Int) then some i.toNat else none

def clampBound (length : Nat) (low high : Int) (i : Int) : Int :=
  let i := if i < 0 then i + length else i
  max low (min high i)

def progression (start step : Int) (count : Nat) : List Int :=
  (List.range count).map fun (k : Nat) => start + step * k

def stepCount (start stop step : Int) : Nat :=
  if 0 < step then ((stop - start + step - 1) / step).toNat
  else if step < 0 then ((start - stop - step - 1) / (-step)).toNat
  else 0

/-- The positions that a slice selects in a sequence of a length; a step of zero is no slice. -/
def slicePositions? (length : Nat) (lower upper step : Option Int) : Option (List Nat) :=
  let step := step.getD 1
  if step = 0 then none
  else
    let n : Int := length
    let (start, stop) :=
      if 0 < step then
        ((lower.map (clampBound length 0 n)).getD 0, (upper.map (clampBound length 0 n)).getD n)
      else
        ((lower.map (clampBound length (-1) (n - 1))).getD (n - 1),
         (upper.map (clampBound length (-1) (n - 1))).getD (-1))
    some ((progression start step (stepCount start stop step)).map Int.toNat)

inductive AxisIndex where
  | at (i : Int)
  | slice (lower upper step : Option Int)
  | newAxis
deriving DecidableEq, Repr

namespace Tensor

def indexedShape : List AxisIndex → List Nat → Except Fault (List Nat)
  | [], shape => return shape
  | .newAxis :: is, shape => return 1 :: (← indexedShape is shape)
  | .at i :: is, n :: shape => match position? n i with
    | some _ => indexedShape is shape
    | none => throw .indexError
  | .slice lower upper step :: is, n :: shape => do
    if step.any (· ≤ 0) then throw (.valueError none)
    match slicePositions? n lower upper step with
    | some positions => return positions.length :: (← indexedShape is shape)
    | none => throw (.valueError none)
  | _ :: _, [] => throw .indexError

def indexedData : List AxisIndex → List Nat → List Element → List Element
  | .newAxis :: is, shape, xs => indexedData is shape xs
  | .at i :: is, n :: shape, xs =>
    let i := (position? n i).getD 0
    indexedData is shape ((xs.drop (i * count shape)).take (count shape))
  | .slice lower upper step :: is, n :: shape, xs =>
    ((slicePositions? n lower upper step).getD []).flatMap fun i =>
      indexedData is shape ((xs.drop (i * count shape)).take (count shape))
  | _, _, xs => xs

def index (t : Tensor) (is : List AxisIndex) : Except Fault Tensor := do
  let shape ← indexedShape is t.shape
  return ⟨t.dtype, shape, indexedData is t.shape t.data⟩

end Tensor

end Bladewright
