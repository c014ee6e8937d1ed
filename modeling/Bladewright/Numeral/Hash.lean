import Bladewright.Numeral.Floating

/-!
Hashes: numbers by their value modulo a prime, so that numbers of one value have one hash whatever their type, and
tuples by mixing the hashes of their elements.
-/
namespace Bladewright.Numeral

def hashModulus : Nat := Nat.pow 2 61 - 1

/-- Minus one is no hash; minus two stands for it. -/
def settleHash (n : Int) : Int := if n = -1 then -2 else n

/-- The hash of a number, if its value decides it. Halves are powers of two backwards: doubling 61
times is the identity modulo the prime. -/
def Floating.hash? : Floating → Option Int
  | .finite q =>
    let size := q.num.natAbs * Nat.pow 2 ((60 * q.den.log2) % 61) % hashModulus
    some (settleHash (if q < 0 then -size else size))
  | .negZero => some 0
  | .infinite negative => some (if negative then -314159 else 314159)
  | .nan => none

def wordCount : Nat := Nat.pow 2 64

def wordOf (n : Int) : Nat := (n % (wordCount : Int)).toNat

def signedWord (n : Nat) : Int :=
  let low := n % wordCount
  if low < wordCount / 2 then low else (low : Int) - wordCount

def complexHash (re im : Int) : Int := settleHash (signedWord (wordOf (re + 1000003 * im)))

/-- One step of mixing: a lane is multiplied in, and the word turned by 31 bits and multiplied. -/
def mixLane (acc : Nat) (lane : Int) : Nat :=
  let acc := (acc + wordOf lane * 14029467366897019727) % wordCount
  let turned := (acc * Nat.pow 2 31 + acc / Nat.pow 2 33) % wordCount
  turned * 11400714785074694791 % wordCount

def tupleHash (lanes : List Int) : Int :=
  let start := 2870177450012600261
  let mixed := (lanes.foldl mixLane start + (lanes.length ^^^ (start ^^^ 3527539))) % wordCount
  if mixed = wordCount - 1 then 1546275796 else signedWord mixed

end Bladewright.Numeral
