import Bladewright.Host.Datum
import Bladewright.Tensor.Index

/-!
The values that generated code works on: plain data, tensors, the elements of one grade, and the functions and types
that code can name.
-/
namespace Bladewright.Host

open Bladewright.Numeral

inductive Routine where
  | getComponent
  | construct
  | pair
  | reverse
  | twice
  | successor
  | stack
  | abs
  | all
  | any
  | callable
  | chr
  | divmod
  | getAttribute
  | hasAttribute
  | hash
  | isInstance
  | len
  | max
  | min
  | ord
  | pow
  | repr
  | round
  | sorted
  | sum
deriving DecidableEq, Repr, Inhabited

inductive Kind where
  | none
  | ellipsis
  | bool
  | int
  | float
  | complex
  | str
  | bytes
  | tuple
  | list
  | set
  | dict
  | slice
  | range
  | enumerate
  | filter
  | generator
  | map
  | reversed
  | zip
  | record
  | kvector
  | kvectorType
  | tensor
  | type
  | builtin
  | method
  | function
  | object
deriving DecidableEq, Repr, Inhabited

/-- A value. Mappings and records list their keys and, in the same order, their values; a function
holds the names it took along and, in the same order, their values. -/
inductive Value where
  | none
  | ellipsis
  | bool (b : Bool)
  | int (n : Int)
  | float (x : Floating)
  | complex (re im : Floating)
  | str (s : String)
  | bytes (b : List UInt8)
  | tuple (elements : List Value)
  | list (elements : List Value)
  | set (elements : List Value)
  | dict (keys values : List Value)
  | slice (lower upper step : Value)
  | range (start stop step : Int)
  | iterator (kind : Kind) (elements : List Value)
  | record (names : List String) (values : List Value)
  | kvector (grade dimension : Int) (components : List Value)
  | kvectorType (grade dimension : Value)
  | tensor (t : Tensor)
  | type (kind : Kind)
  | routine (r : Routine)
  | method (receiver : Value) (name : String)
  | function (name : String) (parameters : Expr) (defaultNames : List String)
      (defaultValues : List Value) (body : List Stmt) (takenNames : List String)
      (takenValues : List Value)
deriving Inhabited

def Routine.name : Routine → String
  | getComponent => "getcomponent"
  | construct => "construct"
  | pair => "pair"
  | reverse => "rev"
  | twice => "twice"
  | successor => "add1"
  | stack => "stack"
  | abs => "abs"
  | all => "all"
  | any => "any"
  | callable => "callable"
  | chr => "chr"
  | divmod => "divmod"
  | getAttribute => "getattr"
  | hasAttribute => "hasattr"
  | hash => "hash"
  | isInstance => "isinstance"
  | len => "len"
  | max => "max"
  | min => "min"
  | ord => "ord"
  | pow => "pow"
  | repr => "repr"
  | round => "round"
  | sorted => "sorted"
  | sum => "sum"

def Kind.name : Kind → String
  | none => "NoneType"
  | ellipsis => "ellipsis"
  | bool => "bool"
  | int => "int"
  | float => "float"
  | complex => "complex"
  | str => "str"
  | bytes => "bytes"
  | tuple => "tuple"
  | list => "list"
  | set => "set"
  | dict => "dict"
  | slice => "slice"
  | range => "range"
  | enumerate => "enumerate"
  | filter => "filter"
  | generator => "generator"
  | map => "map"
  | reversed => "reversed"
  | zip => "zip"
  | record => "SimpleNamespace"
  | kvector => "KVector"
  | kvectorType => "KVectorType"
  | tensor => "Tensor"
  | type => "type"
  | builtin => "builtin_function_or_method"
  | method => "method"
  | function => "function"
  | object => "object"

def Kind.isA (k l : Kind) : Bool := k == l || l == .object || (k == .bool && l == .int)

def Kind.fullName : Kind → String
  | .tensor => "torch.Tensor"
  | .kvector => "core.kvector.KVector"
  | k => k.name

namespace Value

def builtinRoutines : List Routine :=
  [.abs, .all, .any, .callable, .chr, .divmod, .getAttribute, .hasAttribute, .hash, .isInstance, .len, .max,
   .min, .ord, .pow, .repr, .round, .sorted, .sum]

def builtinKinds : List Kind :=
  [.bool, .int, .float, .complex, .str, .bytes, .tuple, .list, .set, .dict, .slice, .range, .enumerate,
   .filter, .map, .reversed, .zip, .type, .object]

def builtin? (name : String) : Option Value :=
  match builtinRoutines.find? (·.name == name) with
  | some r => some (.routine r)
  | Option.none => match builtinKinds.find? (·.name == name) with
    | some k => some (.type k)
    | Option.none => Option.none

def kind : Value → Kind
  | none => .none
  | ellipsis => .ellipsis
  | bool _ => .bool
  | int _ => .int
  | float _ => .float
  | complex .. => .complex
  | str _ => .str
  | bytes _ => .bytes
  | tuple _ => .tuple
  | list _ => .list
  | set _ => .set
  | dict .. => .dict
  | slice .. => .slice
  | range .. => .range
  | iterator k _ => k
  | record .. => .record
  | kvector .. => .kvector
  | kvectorType .. => .kvectorType
  | tensor _ => .tensor
  | type _ => .type
  | routine r => if builtinRoutines.contains r then .builtin else .function
  | method .. => .method
  | function .. => .function

def whole? : Value → Option Int
  | bool b => some (if b then 1 else 0)
  | int n => some n
  | _ => Option.none

/-- What can stand for a position: an integer, or a tensor that holds one. -/
def position? : Value → Option Int
  | bool b => some (if b then 1 else 0)
  | int n => some n
  | tensor ⟨d, _, [.whole n]⟩ => if d.isFloating then Option.none else some n
  | _ => Option.none

def rangeItems (start stop step : Int) : List Value :=
  (progression start step (stepCount start stop step)).map int

def tensorItems (t : Tensor) : Except Fault (List Value) :=
  match t.shape with
  | [] => throw .typeError
  | n :: shape =>
    .ok ((Tensor.pieces (Tensor.count shape) n t.data).map fun xs => tensor ⟨t.dtype, shape, xs⟩)

def items : Value → Except Fault (List Value)
  | str s => return s.toList.map fun c => str (String.singleton c)
  | bytes b => return b.map fun x => int x.toNat
  | tuple es | list es | set es | iterator _ es | kvector _ _ es => return es
  | dict keys _ => return keys
  | range start stop step => return rangeItems start stop step
  | tensor t => tensorItems t
  | _ => throw .typeError

def length : Value → Except Fault Nat
  | iterator .. => throw .typeError
  | v => return (← v.items).length

def truth : Value → Except Fault Bool
  | none => return false
  | bool b => return b
  | int n => return n != 0
  | float x => return !x.isZero
  | complex re im => return !(re.isZero && im.isZero)
  | str s => return s != ""
  | bytes b => return !b.isEmpty
  | tuple es | list es | set es | dict es _ | kvector _ _ es => return !es.isEmpty
  | range start stop step => return stepCount start stop step != 0
  | tensor t => match t.data with
    | [e] => return !e.isZero
    | _ => throw .runtimeError
  | _ => return true

def ofElement : Dtype → Element → Value
  | .bool, e => bool !e.isZero
  | _, .whole n => int n
  | _, .real x => float x

mutual

def isKey : Value → Bool
  | list _ | set _ | dict .. | slice .. | kvector .. | record .. => false
  | tuple es => areKeys es
  | kvectorType g d => isKey g && isKey d
  | _ => true

def areKeys : List Value → Bool
  | [] => true
  | e :: es => isKey e && areKeys es

end

mutual

def text : Value → String
  | none => "None"
  | ellipsis => "Ellipsis"
  | bool b => if b then "True" else "False"
  | int n => toString n
  | float x => x.text
  | complex re im => Datum.complexText re im
  | str s => Text.quoted s
  | bytes b => Text.quotedBytes b
  | tuple [e] => "(" ++ text e ++ ",)"
  | tuple es => "(" ++ ", ".intercalate (texts es) ++ ")"
  | list es => "[" ++ ", ".intercalate (texts es) ++ "]"
  | set [] => "set()"
  | set es => "\x7b" ++ ", ".intercalate (texts es) ++ "\x7d"
  | dict keys values =>
    "\x7b" ++ ", ".intercalate (List.zipWith (fun k v => k ++ ": " ++ v) (texts keys) (texts values)) ++ "\x7d"
  | slice lower upper step => "slice(" ++ text lower ++ ", " ++ text upper ++ ", " ++ text step ++ ")"
  | range start stop step =>
    "range(" ++ toString start ++ ", " ++ toString stop ++ (if step = 1 then "" else ", " ++ toString step) ++ ")"
  | record names values =>
    "namespace(" ++ ", ".intercalate (List.zipWith (fun k v => k ++ "=" ++ v) names (texts values)) ++ ")"
  | kvector grade dimension es =>
    "KVector[" ++ toString grade ++ ", " ++ toString dimension ++ "](" ++ ", ".intercalate (texts es) ++ ")"
  | kvectorType grade dimension => "KVector[" ++ text grade ++ ", " ++ text dimension ++ "]"
  | type k => "<class " ++ Text.quoted k.fullName ++ ">"
  | routine r => "<built-in function " ++ r.name ++ ">"
  | tensor _ => "tensor"
  | iterator k _ => "<" ++ k.name ++ " object>"
  | method _ name => "<method " ++ name ++ ">"
  | function name .. => "<function " ++ name ++ ">"

def texts : List Value → List String
  | [] => []
  | e :: es => text e :: texts es

end

def plainText : Value → String
  | str s => s
  | v => v.text

end Value

end Bladewright.Host
