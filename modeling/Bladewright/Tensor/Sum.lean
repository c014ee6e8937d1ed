import Bladewright.Tensor.Arithmetic

/-!
The order in which the elements of a tensor are added up.
-/
namespace Bladewright

def Dtype.lanes : Dtype → Nat
  | .float32 => 8
  | _ => 4

namespace Tensor

section Order

variable {α : Type} (add : α → α → α) (zero : α)

/-- Moves a full sum up to the next level. The sums of the levels stand lowest first; `blocks` counts
the full blocks of the lowest, and a level is full with every sixteenth. -/
def carry (blocks : Nat) : List α → List α
  | a :: b :: rest =>
    let moved := add b a :: rest
    zero :: (if blocks % 16 = 0 then carry (blocks / 16) moved else moved)
  | sums => sums

/-- The sum in blocks of sixteen, from the sums of the levels and the number of blocks so far. The fuel
bounds the number of blocks. -/
def cascadeFrom : Nat → Nat → List α → List α → α
  | 0, _, sums, _ => sums.foldl add zero
  | fuel + 1, blocks, sums, xs =>
    let added := match sums with
      | a :: rest => (xs.take 16).foldl add a :: rest
      | [] => []
    if 16 ≤ xs.length then cascadeFrom fuel (blocks + 1) (carry add zero (blocks + 1) added) (xs.drop 16)
    else match added with
      | a :: rest => rest.foldl add a
      | [] => zero

def cascade (xs : List α) : α := cascadeFrom add zero (xs.length + 1) 0 (List.replicate 4 zero) xs

def everyFourth : List α → List α
  | a :: _ :: _ :: _ :: rest => a :: everyFourth rest
  | a :: _ => [a]
  | [] => []

/-- The sum by four partial sums, of every fourth element each; what is left over goes to the first. -/
def interleaved (xs : List α) : α :=
  let whole := xs.take (xs.length / 4 * 4)
  match (List.range 4).map fun k => cascade add zero (everyFourth (whole.drop k)) with
  | first :: rest => rest.foldl add ((xs.drop whole.length).foldl add first)
  | [] => zero

/-- The sum of a column of a square table of as many columns, `lanes` of which are added at a time. -/
def columnSum (lanes : Nat) (xs : List α) : α :=
  if xs.length < lanes || 4 * lanes ≤ xs.length then cascade add zero xs else interleaved add zero xs

def lane (size k : Nat) : Nat → List α → List α
  | 0, _ => []
  | groups + 1, xs => (xs.drop k).take 1 ++ lane size k groups (xs.drop size)

/-- The sum of a row: each lane by itself, then what is left over and the lanes in turn. -/
def rowSum (lanes : Nat) (xs : List α) : α :=
  if xs.length < lanes then interleaved add zero xs
  else
    let groups := xs.length / lanes
    let left := (xs.drop (groups * lanes)).foldl add zero
    ((List.range lanes).map fun k => interleaved add zero (lane lanes k groups xs)).foldl add left

end Order

/-- The sum of all elements. Integers and truth values add up to an integer. -/
def total (t : Tensor) : Tensor :=
  let d := if t.dtype = .bool then .int64 else t.dtype
  ⟨d, [], [rowSum (Arith.add.element d) (.zero d) d.lanes (t.data.map (Element.cast d))]⟩

end Tensor

end Bladewright
