import Bladewright.Blade.Name
import Bladewright.Host.Component

/-!
The dense layout: a multivector is a row of coefficients, one for each blade, in the order of the blades as sets of
bits.
-/
namespace Bladewright.Dense

open Bladewright.Host

/-- What rows need of their coefficients. Sums are taken in order unless the arithmetic has an order of
its own. -/
structure Arithmetic (α : Type) where
  zero : α
  add : α → α → α
  mul : α → α → α
  ofInt : Int → α
  sum : List α → α := fun xs => xs.foldl add zero

section Rows

variable {α : Type} (ops : Arithmetic α) (s : Signature)

/-- A coefficient of a product: the sum over the blades of the left factor. -/
def coefficient (a b : Array α) (blade : Nat) : α :=
  ops.sum ((List.range s.size).map fun i =>
    let x := (a[i]?).getD ops.zero
    let y := (b[i ^^^ blade]?).getD ops.zero
    ops.mul (ops.mul x y) (ops.ofInt (Blade.productSign s i (i ^^^ blade))))

def productRow (a b : List α) : List α :=
  (List.range s.size).map (coefficient ops s a.toArray b.toArray)

def reverseRow (a : List α) : List α :=
  a.mapIdx fun blade x => ops.mul x (ops.ofInt (Blade.reverseSign (Blade.grade blade)))

/-- The row of the part of a grade. -/
def gradeRow (k : Int) (a : List α) : List α :=
  a.mapIdx fun blade x => if (Blade.grade blade : Int) = k then x else ops.zero

/-- The row with given coefficients and zeros elsewhere; of two for one blade the later counts. -/
def scatterRow (coefficients : List (Nat × α)) : List α :=
  (List.range s.size).map fun blade => (coefficients.reverse.lookup blade).getD ops.zero

/-- The coefficients of given blades. -/
def gatherRow (blades : List Nat) (a : List α) : List α :=
  let row := a.toArray
  blades.filterMap fun blade => row[blade]?

end Rows

/-- Why an operation on rows is refused. -/
inductive Error where
  | tooManyDimensions (n : Nat)
  | shapeless (value : Value)
  | wrongExtent (operand : String) (size : Nat) (shape : List Nat)
  | wrongCount (expected : Nat) (grades : List Int) (given : Nat)
  | notBladeName (text : String)
  | blade (cause : Blade.IndexError)
  | host (cause : Fault)

def Error.message? : Error → Option String
  | .tooManyDimensions n => some ("Dense layout limited to 12 dimensions, got " ++ toString n)
  | .shapeless (.type k) => some ("type object '" ++ k.name ++ "' has no attribute 'ndim'")
  | .shapeless v => some ("'" ++ v.kind.name ++ "' object has no attribute 'ndim'")
  | .wrongExtent operand size shape =>
    some (operand ++ ": last dim should be " ++ toString size ++ " (algebra dim), got shape " ++
      Blade.tupleText (shape.map Int.ofNat))
  | .wrongCount expected grades given =>
    some ("Expected " ++ toString expected ++ " components for grades " ++ Blade.tupleText grades ++
      ", got " ++ toString given)
  | .notBladeName text => some (Text.quoted text ++ " is not a basis blade name")
  | .blade cause => cause.message?
  | .host cause => cause.message?

/-- The arithmetic of a type of elements. Signs are of a type of their own before they meet the others. -/
def elementArithmetic (d signs : Dtype) : Arithmetic Element where
  zero := .zero d
  add := Tensor.Arith.add.element d
  mul := Tensor.Arith.mul.element d
  ofInt n := ((Element.whole n).cast signs).cast d

/-- Sums of truth values are integers. -/
def sumType (d : Dtype) : Dtype := if d = .bool then .int64 else d

def sumArithmetic (d signs : Dtype) : Arithmetic Element :=
  let zero : Element := .zero (sumType d)
  let add := Tensor.Arith.add.element (sumType d)
  { elementArithmetic d signs with zero, add, sum := Tensor.columnSum add zero d.lanes }

/-- Tables of pairs of blades are not made beyond this. -/
def maxDimension : Nat := 12

def check (s : Signature) : Except Error Unit :=
  if s.dimension ≤ maxDimension then return () else throw (.tooManyDimensions s.dimension)

def tensorOf : Value → Except Error Tensor
  | .tensor t => return t
  | _ => throw (.host .attributeError)

/-- A tensor whose last axis has a place for each blade. -/
def rowsOf (s : Signature) (operand : String) : Value → Except Error Tensor
  | .tensor t => if t.shape.getLast? = some s.size then return t else throw (.wrongExtent operand s.size t.shape)
  | v => throw (.shapeless v)

def geometricProduct (s : Signature) (a b : Value) : Except Error Tensor := do
  let x ← rowsOf s "geometric_product(A)" a
  let y ← rowsOf s "geometric_product(B)" b
  let d := x.dtype.promote y.dtype
  match Tensor.commonShape? x.shape y.shape with
  | none => throw (.host .runtimeError)
  | some shape =>
    let ops := sumArithmetic d x.dtype
    let left := ((x.cast d).broadcastTo shape).rows
    let right := ((y.cast d).broadcastTo shape).rows
    return ⟨sumType d, shape, (List.zipWith (productRow ops s) left right).flatten⟩

/-- A tensor with its last axis stretched to all blades. -/
def stretched (s : Signature) (v : Value) : Except Error Tensor := do
  let t ← tensorOf v
  match Tensor.commonShape? t.shape [s.size] with
  | none => throw (.host .runtimeError)
  | some shape => return t.broadcastTo shape

def reverse (s : Signature) (v : Value) : Except Error Tensor := do
  let t ← stretched s v
  return t.mapRows (some s.size) (reverseRow (elementArithmetic t.dtype t.dtype))

def gradePart (s : Signature) (k : Int) (v : Value) : Except Error Tensor := do
  let t ← stretched s v
  return t.mapRows (some s.size) (gradeRow (elementArithmetic t.dtype t.dtype) k)

/-- The blades of given grades: grades ascending, and within a grade in the order of the components. -/
def bladesOf (s : Signature) (grades : List Int) : Except Error (List Nat) := do
  let lists ← (grades.mergeSort (· ≤ ·)).mapM fun
    | .ofNat k => return Blade.ofGrade s.dimension k
    | .negSucc _ => throw (.host (.valueError none))
  return lists.flatten

/-- Puts components of given grades into the dense layout, with the type of the first. -/
def embed (s : Signature) (components : Value) (grades : List Int) : Except Error Tensor := do
  let blades ← bladesOf s grades
  let count ← components.length.mapError .host
  if blades.length != count then throw (.wrongCount blades.length grades count)
  let values ← (do (← components.items).mapM fun
    | .tensor t => return t
    | c => Value.fillTensor .default c : Except Fault (List Tensor)).mapError .host
  match values with
  | [] => throw (.host .indexError)
  | first :: _ =>
    let d := first.dtype
    let shape ← (Tensor.sharedShape values).mapError .host
    let data := values.map fun t => ((t.cast d).broadcastTo shape).data
    let rows := (Tensor.columns (Tensor.count shape) data).map fun row =>
      scatterRow (elementArithmetic d d) s (blades.zip row)
    return ⟨d, shape ++ [s.size], rows.flatten⟩

/-- The components of given grades, a tensor for each blade. -/
def extract (s : Signature) (v : Value) (grades : List Int) : Except Error (List Tensor) := do
  let t ← rowsOf s "extract(mv)" v
  let blades ← bladesOf s grades
  return blades.map fun blade => t.mapRows none (gatherRow [blade])

/-- The row of a product of basis vectors. -/
def basis (s : Signature) (factors : List Int) : Except Error Tensor := do
  let (blade, sign) ← (Blade.canonicalize (some s) factors).mapError .blade
  if s.size ≤ blade then throw (.host .indexError)
  let ops := elementArithmetic .default .default
  return ⟨.default, [s.size], scatterRow ops s [(blade, ops.ofInt sign)]⟩

/-- The row of the blade that a text names. -/
def basisNamed (s : Signature) (text : String) : Except Error Tensor := do
  match ← (Blade.parseName text).mapError .blade with
  | some factors => basis s (factors.map Int.ofNat)
  | none => throw (.notBladeName text)

def table (d : Dtype) (shape : List Nat) (entries : List Int) : Tensor :=
  ⟨d, shape, entries.map fun n => (Element.whole n).cast d⟩

/-- The tables of an algebra: for each pair of blades the blade that takes the first to the second and
the sign of their product, and for each blade the sign of its reverse and its grade. -/
def tables (s : Signature) : List Tensor :=
  let blades := List.range s.size
  let pairs := blades.flatMap fun i => blades.map fun k => (i, i ^^^ k)
  [table .int64 [s.size, s.size] (pairs.map fun (_, j) => (j : Int)),
   table .default [s.size, s.size] (pairs.map fun (i, j) => Blade.productSign s i j),
   table .default [s.size] (blades.map fun b => Blade.reverseSign (Blade.grade b)),
   table .int64 [s.size] (blades.map fun b => (Blade.grade b : Int))]

end Bladewright.Dense
