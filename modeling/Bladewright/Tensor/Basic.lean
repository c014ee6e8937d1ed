import Bladewright.Host.Fault
import Bladewright.Numeral.Floating

/-!
Tensors: rows of rows of numbers of one type, kept as one list in row-major order together with the extents of the
axes. Operations between tensors stretch axes of extent one.
-/
namespace Bladewright

open Bladewright.Numeral Bladewright.Host

/-- The types of tensor elements, each below the next. -/
inductive Dtype where
  | bool
  | int64
  | float32
  | float64
deriving DecidableEq, Repr, Inhabited

/-- An element: an integer, or zero and one for truth values, or a floating-point number. -/
inductive Element where
  | whole (n : Int)
  | real (x : Floating)
deriving DecidableEq, Repr, Inhabited

structure Tensor where
  dtype : Dtype
  shape : List Nat
  data : List Element
deriving DecidableEq, Repr, Inhabited

namespace Dtype

def rank : Dtype → Nat
  | bool => 0
  | int64 => 1
  | float32 => 2
  | float64 => 3

def promote (a b : Dtype) : Dtype := if a.rank ≤ b.rank then b else a

def isFloating (d : Dtype) : Bool := float32.rank ≤ d.rank

/-- The type of floating-point numbers without a type of their own. -/
def default : Dtype := float32

def name : Dtype → String
  | bool => "bool"
  | int64 => "int64"
  | float32 => "float32"
  | float64 => "float64"

def format : Dtype → Format
  | float64 => binary64
  | _ => binary32

end Dtype

namespace Element

def wrap (n : Int) : Int := (n + (Nat.pow 2 63 : Nat)) % (Nat.pow 2 64 : Nat) - (Nat.pow 2 63 : Nat)

def ofBool (b : Bool) : Element := whole (if b then 1 else 0)

def isZero : Element → Bool
  | whole n => n == 0
  | real x => x.isZero

/-- A floating-point number without its fraction; what has no integer part is the least integer. -/
def truncate : Floating → Int
  | .finite q => wrap (q.num.tdiv q.den)
  | .negZero => 0
  | .infinite _ | .nan => -(Nat.pow 2 63 : Nat)

def cast : Dtype → Element → Element
  | .bool, e => ofBool !e.isZero
  | .int64, whole n => whole n
  | .int64, real x => whole (truncate x)
  | d, whole n => real (d.format.round n)
  | d, real x => real (d.format.convert x)

def zero (d : Dtype) : Element := if d.isFloating then real (.finite 0) else whole 0

end Element

namespace Tensor

def count (shape : List Nat) : Nat := shape.foldl (· * ·) 1

def cast (d : Dtype) (t : Tensor) : Tensor :=
  if t.dtype = d then t else ⟨d, t.shape, t.data.map (Element.cast d)⟩

def pieces {α : Type} (size : Nat) : Nat → List α → List (List α)
  | 0, _ => []
  | n + 1, xs => xs.take size :: pieces size n (xs.drop size)

/-- The common shape of two, given from the last axis on. -/
def commonReversed? : List Nat → List Nat → Option (List Nat)
  | [], b => some b
  | a, [] => some a
  | x :: a, y :: b => do
    let extent ← if x = y then some x else if x = 1 then some y else if y = 1 then some x else none
    return extent :: (← commonReversed? a b)

/-- The common shape of two, with axes added in front and axes of extent one stretched. -/
def commonShape? (a b : List Nat) : Option (List Nat) :=
  (commonReversed? a.reverse b.reverse).map List.reverse

/-- Row-major data of a shape stretched to another shape with as many axes. -/
def stretch {α : Type} : List Nat → List Nat → List α → List α
  | t :: target, s :: source, xs =>
    if s = t then (pieces (count source) s xs).flatMap (stretch target source)
    else (List.replicate t (stretch target source xs)).flatten
  | _, _, xs => xs

def broadcastTo (shape : List Nat) (t : Tensor) : Tensor :=
  let padded := List.replicate (shape.length - t.shape.length) 1 ++ t.shape
  ⟨t.dtype, shape, stretch shape padded t.data⟩

def sharedShape (ts : List Tensor) : Except Fault (List Nat) :=
  ts.foldlM (fun shape t => match commonShape? shape t.shape with
    | some shape => return shape
    | none => throw .runtimeError) []

def columns {α : Type} : Nat → List (List α) → List (List α)
  | 0, _ => []
  | n + 1, rows => rows.filterMap List.head? :: columns n (rows.map List.tail)

def stackLast (d : Dtype) (shape : List Nat) (ts : List Tensor) : Tensor :=
  ⟨d, shape ++ [ts.length], (columns (count shape) (ts.map (·.data))).flatten⟩

/-- Several tensors side by side on a new last axis, stretched and with their greatest type. -/
def stack (ts : List Tensor) : Except Fault Tensor := do
  match ts with
  | [] => throw .indexError
  | first :: rest =>
    let d := rest.foldl (fun d t => d.promote t.dtype) first.dtype
    let shape ← sharedShape ts
    return stackLast d shape (ts.map fun t => (t.cast d).broadcastTo shape)

def rows (t : Tensor) : List (List Element) :=
  match t.shape.reverse with
  | [] => [t.data]
  | last :: outer => pieces last (count outer) t.data

/-- Replaces the last axis by what is made of each row: `shape` and data for each. -/
def mapRows (t : Tensor) (extent : Option Nat) (f : List Element → List Element) : Tensor :=
  ⟨t.dtype, t.shape.dropLast ++ extent.toList, t.rows.flatMap f⟩

end Tensor

end Bladewright
