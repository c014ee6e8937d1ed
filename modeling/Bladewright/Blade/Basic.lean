import Bladewright.Signature.Basic

/-!
Basis blades as bit masks: bit `i` of a mask is set when basis vector `i` takes part. A mask stands for the product of
its basis vectors in ascending order, and the sign picked up on the way to that order is kept beside it.
-/
namespace Bladewright.Blade

/-- The basis vectors of a blade, ascending. -/
def indices (blade : Nat) : List Nat := (List.range (blade.log2 + 1)).filter blade.testBit

/-- The number of basis vectors of a blade. -/
def grade (blade : Nat) : Nat := (List.range (blade.log2 + 1)).countP blade.testBit

/-- The count that is reached from `count` by adding the basis vectors that a mask shares with `b` and shifting the
mask down by one place, until nothing is left of the mask. -/
@[semireducible] def countShared (b a count : Nat) : Nat :=
  if a = 0 then count else countShared b (a >>> 1) (count + grade (a &&& b))
termination_by a
decreasing_by
  rw [Nat.shiftRight_eq_div_pow]
  omega

/-- How many transpositions of neighbours sort the product of two blades: the shifts of the left one by one place and
more are laid over the right one, and what they share is counted. -/
def swaps (a b : Nat) : Nat := countShared b (a >>> 1) 0

/-- The sign of sorting the product of two blades. -/
def reorderingSign (a b : Nat) : Int := if swaps a b % 2 = 1 then -1 else 1

/-- The product of the squares of shared basis vectors. -/
def metricFactor (s : Signature) (common : Nat) : Int :=
  (indices common).foldl (fun factor i => factor * s.square i) 1

/-- The sign of the product of two blades: zero if a degenerate basis vector is squared. -/
def productSign (s : Signature) (a b : Nat) : Int := reorderingSign a b * metricFactor s (a &&& b)

/-- The product of two blades: the basis vectors that only one of them has, and a sign. -/
def product (s : Signature) (a b : Nat) : Nat × Int := (a ^^^ b, productSign s a b)

/-- The basis vector beyond the signature that a product would have to square: there is one unless
a degenerate basis vector already made the product zero. -/
def beyond? (s : Signature) (common : Nat) : Option Nat :=
  match (indices common).find? fun i => s.positive + s.negative ≤ i with
  | some i => if s.dimension ≤ i then some i else none
  | none => none

/-- A blade times the basis vectors of a list, one after the other, and the sign so far; nothing
more happens once the sign is zero. -/
def contract (s : Signature) : Nat → Int → List Nat → Nat × Int
  | blade, sign, [] => (blade, sign)
  | blade, sign, i :: rest =>
    let (blade', factor) := product s blade (Nat.pow 2 i)
    if factor = 0 then (blade', 0) else contract s blade' (sign * factor) rest

/-- A product of basis vectors, as a blade with a sign. -/
def ofProduct (s : Signature) (factors : List Nat) : Nat × Int := contract s 0 1 factors

/-- Why indices name no blade. -/
inductive IndexError where
  | negative
  | repeated (index : Nat) (all : List Int)
  | uncontracted (index : Nat)
  | outOfRange (index : Int) (signature : Signature)
  | tooManyDigits
deriving DecidableEq, Repr

def tupleText (all : List Int) : String :=
  match all with
  | [i] => "(" ++ toString i ++ ",)"
  | _ => "(" ++ ", ".intercalate (all.map toString) ++ ")"

def IndexError.message? : IndexError → Option String
  | .negative | .tooManyDigits => none
  | .repeated index all =>
    some ("Repeated basis index " ++ toString (index + 1) ++ " in " ++ tupleText all)
  | .uncontracted index =>
    some ("Repeated basis index " ++ toString (index + 1) ++ " needs a signature to contract")
  | .outOfRange index s =>
    some ("Basis index " ++ toString index ++ " out of range for " ++ s.text)

def squareOf (s : Signature) (i : Int) : Except IndexError Int :=
  match s.square? i with
  | some q => return q
  | none => throw (.outOfRange i s)

/-- The metric factor of shared basis vectors, all of which have to be in the signature. -/
def checkedFactor (s : Signature) (common : Nat) : Except IndexError Int :=
  match beyond? s common with
  | some i => throw (.outOfRange i s)
  | none => return metricFactor s common

/-- The product of two blades, whose shared basis vectors have to be in the signature. -/
def checkedProduct (s : Signature) (a b : Nat) : Except IndexError (Nat × Int) :=
  match beyond? s (a &&& b) with
  | some i => throw (.outOfRange i s)
  | none => return product s a b

def addIndices (all : List Int) : Nat → List Int → Except IndexError Nat
  | blade, [] => return blade
  | blade, .ofNat i :: rest =>
    if blade.testBit i then throw (.repeated i all) else addIndices all (blade ||| Nat.pow 2 i) rest
  | _, .negSucc _ :: _ => throw .negative

/-- The blade of distinct basis vectors in any order. -/
def ofIndices (all : List Int) : Except IndexError Nat := addIndices all 0 all

/-- Sorts distinct basis vectors into a blade and a sign. -/
def sortIndices : Nat → Int → List Int → Except IndexError (Nat × Int)
  | blade, sign, [] => return (blade, sign)
  | blade, sign, .ofNat i :: rest =>
    if blade.testBit i then throw (.uncontracted i)
    else sortIndices (blade ||| Nat.pow 2 i) (sign * reorderingSign blade (Nat.pow 2 i)) rest
  | _, _, .negSucc _ :: _ => throw .negative

/-- Multiplies basis vectors one by one in a signature. -/
def contractIndices (s : Signature) : Nat → Int → List Int → Except IndexError (Nat × Int)
  | blade, sign, [] => return (blade, sign)
  | blade, sign, .ofNat i :: rest => do
    let (blade', factor) ← checkedProduct s blade (Nat.pow 2 i)
    if factor = 0 then return (blade', 0) else contractIndices s blade' (sign * factor) rest
  | _, _, .negSucc _ :: _ => throw .negative

/-- A product of basis vectors as a blade and a sign. Repeated basis vectors need a signature. -/
def canonicalize (s : Option Signature) (factors : List Int) : Except IndexError (Nat × Int) :=
  match s with
  | some s => contractIndices s 0 1 factors
  | none => sortIndices 0 1 factors

/-- The sign of reversing a blade of a grade. -/
def reverseSign (k : Int) : Int := if k * (k - 1) / 2 % 2 = 1 then -1 else 1

def involutionSign (k : Int) : Int := if k % 2 = 1 then -1 else 1

/-- The blades of a grade over `width` basis vectors, of which `first` is the lowest. -/
def ofGradeFrom (first : Nat) : Nat → Nat → List Nat
  | _, 0 => [0]
  | 0, _ + 1 => []
  | width + 1, k + 1 =>
    (ofGradeFrom (first + 1) width k).map (Nat.pow 2 first + ·) ++ ofGradeFrom (first + 1) width (k + 1)

/-- The blades of a grade in `n` dimensions, by their indices. -/
def ofGrade (n k : Nat) : List Nat := ofGradeFrom 0 n k

/-- The place of a blade among those of its grade. -/
def position? (n blade : Nat) : Option Nat := (ofGrade n (grade blade)).idxOf? blade

/-- Whether one list of indices comes no later than another: by the first that differs, and a shorter
list before its continuations. -/
def indicesBefore : List Nat → List Nat → Bool
  | [], _ => true
  | _ :: _, [] => false
  | i :: is, j :: js => i < j || (i == j && indicesBefore is js)

/-- The order in which blades are listed: by grade, then by indices. -/
def before (a b : Nat) : Bool :=
  grade a < grade b || (grade a == grade b && indicesBefore (indices a) (indices b))

end Bladewright.Blade
