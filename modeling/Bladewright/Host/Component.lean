import Bladewright.Host.Arithmetic
import Bladewright.Tensor.Sum

/-!
The parts of values: items by position or key, named attributes, and the components of geometric values. An element of
one grade is built from exactly as many components as there are blades.
-/
namespace Bladewright.Host.Value

open Bladewright.Numeral

def bound : Value → Except Fault (Option Int)
  | none => return Option.none
  | v => match v.position? with
    | some i => return some i
    | Option.none => throw .typeError

def select {α : Type} (xs : List α) : Value → Except Fault (α ⊕ List α)
  | slice lower upper step => do
    let step ← bound step
    let lower ← bound lower
    let upper ← bound upper
    match slicePositions? xs.length lower upper step with
    | some ps =>
      let elements := xs.toArray
      return .inr (ps.filterMap fun i => elements[i]?)
    | Option.none => throw (.valueError Option.none)
  | v => match v.position? with
    | some i => match (Bladewright.position? xs.length i).bind (xs[·]?) with
      | some x => return .inl x
      | Option.none => throw .indexError
    | Option.none => throw .typeError

def choose {α : Type} (one : α → Value) (several : List α → Value) (xs : List α) (index : Value) :
    Except Fault Value :=
  return match ← select xs index with
    | .inl x => one x
    | .inr ys => several ys

def valueOf (keys values : List Value) (key : Value) : Except Fault Value := do
  unless key.isKey do throw .typeError
  match ← (keys.zip values).filterM fun entry => same key entry.1 with
  | (_, v) :: _ => return v
  | [] => throw .keyError

def axisIndex : Value → Except Fault AxisIndex
  | none => return .newAxis
  | slice lower upper step => return .slice (← bound lower) (← bound upper) (← bound step)
  | bool _ => throw .indexError
  | v => match v.position? with
    | some i => return .at i
    | Option.none => throw .indexError

def axisIndices (rank : Nat) (indices : List Value) : Except Fault (List AxisIndex) := do
  let isEllipsis : Value → Bool := fun | ellipsis => true | _ => false
  let front ← (indices.takeWhile (!isEllipsis ·)).mapM axisIndex
  match indices.dropWhile (!isEllipsis ·) with
  | [] => return front
  | _ :: rest =>
    let back ← rest.mapM axisIndex
    let used := (front ++ back).countP (· != .newAxis)
    return front ++ List.replicate (rank - used) (.slice Option.none Option.none Option.none) ++ back

def tensorItem (t : Tensor) (index : Value) : Except Fault Value :=
  match index with
  | tuple is => do return tensor (← t.index (← axisIndices t.shape.length is))
  | list is => do
    let parts ← is.mapM fun i => do t.index [← axisIndex i]
    return tensor (← stackFirst t.dtype parts)
  | i => do return tensor (← t.index (← axisIndices t.shape.length [i]))

/-- The item of a value at an index. A type of collections stands for itself with any index, and the
type of the elements of one grade takes a grade and a dimension. -/
def item (v index : Value) : Except Fault Value :=
  match v with
  | str s => choose (fun c => str (String.singleton c)) (fun cs => str (String.ofList cs)) s.toList index
  | bytes b => choose (fun x => int x.toNat) bytes b index
  | tuple es => choose id tuple es index
  | list es => choose id list es index
  | kvector _ _ es => choose id tuple es index
  | range start stop step => choose id tuple (rangeItems start stop step) index
  | dict keys values => valueOf keys values index
  | tensor t => tensorItem t index
  | type .kvector => do
    match ← index.items with
    | [grade, dimension] => return kvectorType grade dimension
    | _ => throw (.valueError Option.none)
  | type k => if [Kind.tuple, .list, .dict, .set, .type].contains k then return type k else throw .typeError
  | _ => throw .typeError

def combinations (n k : Nat) : Nat :=
  if n < k then 0
  else (List.range (min k (n - k))).foldl (fun c i => c * (n - i) / (i + 1)) 1

def buildKVector (grade dimension components : Value) : Except Fault Value := do
  let es ← components.items
  match grade.position?, dimension.position? with
  | some g, some d =>
    if g < 0 || d < 0 then throw (.valueError Option.none)
    if d < g then
      throw (.valueError (some ("Grade " ++ toString g ++ " out of range for dimension " ++ toString d)))
    let expected := combinations d.toNat g.toNat
    if es.length != expected then
      throw (.valueError (some ("A grade-" ++ toString g ++ " element of a " ++ toString d ++
        "-dimensional algebra has " ++ toString expected ++ " components, got " ++ toString es.length)))
    return kvector g d es
  | _, _ => throw .typeError

def stackComponents (components : Value) : Except Fault Value := do
  let ts ← (← components.items).mapM fun c => match c with
    | tensor t => return t
    | c => fillTensor .default c
  return tensor (← Tensor.stack ts)

/-- The only component of a scalar: of an element of one grade its first, else the value itself. -/
def scalarComponent : Value → Except Fault Value
  | kvector _ _ es => match es with
    | e :: _ => return e
    | [] => throw .indexError
  | v => return v

def component (v i : Value) : Except Fault Value :=
  match v with
  | tensor t => tensorItem t (tuple [ellipsis, i])
  | v => v.item i

def methods : Kind → List String
  | .dict => ["get", "keys", "values", "items"]
  | .tuple | .list => ["index", "count"]
  | .str => ["upper", "lower"]
  | .float => ["is_integer", "conjugate"]
  | .complex => ["conjugate"]
  | .int | .bool => ["bit_length", "conjugate"]
  | .kvector => ["to_tensor"]
  | .tensor => ["sum", "item", "tolist", "abs", "numel", "dim", "float", "double"]
  | _ => []

def fieldOf? : Value → String → Option Value
  | record names values, name => ((names.zip values).find? (·.1 == name)).map (·.2)
  | kvector grade _ _, "grade" => some (int grade)
  | kvector _ dimension _, "dim" => some (int dimension)
  | kvector _ _ es, "components" => some (tuple es)
  | kvectorType grade _, "grade" => some grade
  | kvectorType _ dimension, "dim" => some dimension
  | tensor t, "shape" => some (tuple (t.shape.map fun (n : Nat) => int n))
  | tensor t, "ndim" => some (int t.shape.length)
  | slice lower _ _, "start" => some lower
  | slice _ upper _, "stop" => some upper
  | slice _ _ step, "step" => some step
  | type k, "__name__" => some (str k.name)
  | routine r, "__name__" => some (str r.name)
  | function name .., "__name__" => some (str name)
  | float x, "real" => some (float x)
  | float _, "imag" => some (float (.finite 0))
  | complex re _, "real" => some (float re)
  | complex _ im, "imag" => some (float im)
  | v, name => match v.whole?, name with
    | some n, "real" | some n, "numerator" => some (int n)
    | some _, "imag" => some (int 0)
    | some _, "denominator" => some (int 1)
    | _, _ => Option.none

def attributeOf (v : Value) (name : String) : Except Fault Value :=
  match v.fieldOf? name with
  | some field => return field
  | Option.none => if (methods v.kind).contains name then return method v name else throw .attributeError

def nestedLists (d : Dtype) : List Nat → List Element → Value
  | [], xs => match xs with
    | e :: _ => ofElement d e
    | [] => none
  | n :: shape, xs => list ((Tensor.pieces (Tensor.count shape) n xs).map (nestedLists d shape))

def placeOf (v : Value) : List Value → Nat → Except Fault Value
  | [], _ => throw (.valueError Option.none)
  | e :: es, k => do if ← same e v then return int k else placeOf v es (k + 1)

def callMethod (v : Value) (name : String) (args : List Value) : Except Fault Value :=
  match v, name, args with
  | dict keys _, "keys", [] => return list keys
  | dict _ values, "values", [] => return list values
  | dict keys values, "items", [] => return list (List.zipWith (fun k v => tuple [k, v]) keys values)
  | dict keys values, "get", key :: default => do
    unless key.isKey && default.length ≤ 1 do throw .typeError
    match ← (keys.zip values).filterM fun entry => same key entry.1 with
    | (_, v) :: _ => return v
    | [] => return default.headD none
  | tuple es, "index", [x] | list es, "index", [x] => placeOf x es 0
  | tuple es, "count", [x] | list es, "count", [x] => return int (← es.filterM (same · x)).length
  | str s, "upper", [] => return str s.toUpper
  | str s, "lower", [] => return str s.toLower
  | float x, "is_integer", [] => return bool (x.toRat?.any (·.den == 1))
  | float x, "conjugate", [] => return float x
  | complex re im, "conjugate", [] => return complex re im.neg
  | kvector _ _ es, "to_tensor", [] => stackComponents (tuple es)
  | tensor t, "sum", [] => return tensor t.total
  | tensor t, "item", [] => match t.data with
    | [e] => return ofElement t.dtype e
    | _ => throw .runtimeError
  | tensor t, "tolist", [] => return nestedLists t.dtype t.shape t.data
  | tensor t, "abs", [] => return tensor t.abs
  | tensor t, "numel", [] => return int (Tensor.count t.shape)
  | tensor t, "dim", [] => return int t.shape.length
  | tensor t, "float", [] => return tensor (t.cast .float32)
  | tensor t, "double", [] => return tensor (t.cast .float64)
  | v, "conjugate", [] => match v.whole? with
    | some n => return int n
    | Option.none => throw .typeError
  | v, "bit_length", [] => match v.whole? with
    | some n => return int (if n = 0 then 0 else n.natAbs.log2 + 1)
    | Option.none => throw .typeError
  | _, _, _ => throw .typeError

end Bladewright.Host.Value
