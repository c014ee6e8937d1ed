import Bladewright.Host.Component
import Bladewright.Host.Hash
import Bladewright.Host.NumberText

/-!
What the named functions and the types give when they are called. A call of a value that code gives them, such as a
key or an element-wise function, goes through a `Caller`.
-/
namespace Bladewright.Host

open Bladewright.Numeral
open Bladewright.Host.Value (same truth items operate compareWith scalarComponent component stackComponents
  buildKVector fillTensor toFloating)

abbrev Caller := Value → List Value → List (String × Value) → Except Fault Value

/-- What code can refer to: the names it sees, and the functions that build objects of given types. -/
structure Environment where
  globals : List (String × Value)
  constructors : List (Value × Value)
deriving Inhabited

namespace Environment

/-- Tuples of components are tuples, and tensors are stacked; all other types are called. -/
def standardConstructors : List (Value × Value) :=
  [(.type .tuple, .type .tuple), (.type .tensor, .routine .stack)]

def contract : List (String × Value) :=
  [("getcomponent", .routine .getComponent), ("construct", .routine .construct), ("KVector", .type .kvector)]

def extending (names : List (String × Value)) : Environment := ⟨names ++ contract, standardConstructors⟩

def constructor? (env : Environment) (type : Value) : Except Fault (Option Value) := do
  match ← env.constructors.filterM fun entry => if entry.1.isTensor then return false else same entry.1 type with
  | (_, factory) :: _ => return some factory
  | [] => return none

def register (env : Environment) (type factory : Value) : Except Fault Environment :=
  if type.isKey then return { env with constructors := (type, factory) :: env.constructors }
  else throw .typeError

def construct (env : Environment) (call : Caller) (type components : Value) : Except Fault Value := do
  unless type.isKey do throw .typeError
  match ← env.constructor? type with
  | none | some .none => call type [components] []
  | some factory => call factory [components] []

end Environment

def extreme (before : Value → Value → Except Fault Value) (key : Value → Except Fault Value) :
    List Value → Except Fault (Option Value)
  | [] => return none
  | e :: es => do
    let best ← es.foldlM (fun (best : Value × Value) e => do
      let k ← key e
      if ← (← before k best.2).truth then return (e, k) else return best) (e, ← key e)
    return some best.1

def insertSorted (x : Value × Value) : List (Value × Value) → Except Fault (List (Value × Value))
  | [] => return [x]
  | y :: ys => do
    if ← (← compareWith x.2 y.2 .lt).truth then return x :: y :: ys
    else return y :: (← insertSorted x ys)

def sortValues (key : Value → Except Fault Value) (es : List Value) : Except Fault (List Value) := do
  let sorted ← es.foldlM (fun done e => do insertSorted (e, ← key e) done) []
  return sorted.map (·.1)

def keyOf (call : Caller) (named : List (String × Value)) (e : Value) : Except Fault Value :=
  match named.lookup "key" with
  | none | some .none => return e
  | some f => call f [e] []

def extremeOf (call : Caller) (op : CompareOp) (args : List Value) (named : List (String × Value)) :
    Except Fault Value := do
  unless named.all fun (name, _) => name == "key" || name == "default" do throw .typeError
  let es ← match args with
    | [v] => v.items
    | [] => throw .typeError
    | es => pure es
  match ← extreme (compareWith · · op) (keyOf call named) es, named.lookup "default" with
  | some v, _ => return v
  | none, some v => return v
  | none, none => throw (.valueError none)

def divMod (a b : Value) : Except Fault Value :=
  return .tuple [← operate .floorDiv a b, ← operate .mod a b]

def sumFrom (start : Value) (es : List Value) : Except Fault Value := es.foldlM (operate .add) start

def hasKind (v : Value) : Value → Except Fault Bool
  | .type k => return v.kind.isA k
  | .tuple kinds => kinds.anyM fun
    | .type k => return v.kind.isA k
    | _ => throw .typeError
  | _ => throw .typeError

def attributeOr (v : Value) (name : String) (other : Value) : Except Fault Value :=
  match v.attributeOf name with
  | .error .attributeError => return other
  | r => r

def characterOf (code : Int) : Except Fault Value :=
  if 0 ≤ code && code < 1114112 then return .str (String.singleton (Char.ofNat code.toNat))
  else throw (.valueError none)

def Routine.call (env : Environment) (call : Caller) (r : Routine) (args : List Value)
    (named : List (String × Value)) : Except Fault Value := do
  unless named.isEmpty || [Routine.max, .min, .sorted].contains r do throw .typeError
  match r, args with
  | .getComponent, [v] => scalarComponent v
  | .getComponent, [v, i] => component v i
  | .construct, [type, components] => env.construct call type components
  | .pair, es => return .tuple es
  | .reverse, [v] => return .tuple (← v.items).reverse
  | .twice, [v] => return .tuple (← (← v.items).mapM (operate .mul (.int 2)))
  | .successor, [v] => operate .add v (.int 1)
  | .stack, [v] => stackComponents v
  | .abs, [v] => v.size
  | .all, [v] => return .bool (← (← v.items).allM truth)
  | .any, [v] => return .bool (← (← v.items).anyM truth)
  | .callable, [v] => return .bool ([Kind.type, .kvectorType, .builtin, .method, .function].contains v.kind)
  | .chr, [v] => match v.position? with
    | some code => characterOf code
    | none => throw .typeError
  | .divmod, [a, b] => divMod a b
  | .getAttribute, [v, .str name] => v.attributeOf name
  | .getAttribute, [v, .str name, other] => attributeOr v name other
  | .hasAttribute, [v, .str name] => return .bool (v.attributeOf name).isOk
  | .hash, [v] => return ((← v.hash).map Value.int).getD .none
  | .isInstance, [v, kinds] => return .bool (← hasKind v kinds)
  | .len, [v] => return .int (← v.length)
  | .max, es => extremeOf call .gt es named
  | .min, es => extremeOf call .lt es named
  | .ord, [.str s] => match s.toList with
    | [c] => return .int c.toNat
    | _ => throw .typeError
  | .pow, [a, b] => operate .pow a b
  | .pow, [a, b, c] => do operate .mod (← operate .pow a b) c
  | .repr, [v] => return .str v.text
  | .round, [v] | .round, [v, .none] => v.rounded
  | .round, [v, places] => match places.position? with
    | some n => v.roundedTo n
    | none => throw .typeError
  | .sorted, [v] => do
    let es ← v.items
    match named.lookup "reverse" with
    | none => return .list (← sortValues (keyOf call named) es)
    | some flag =>
      if ← flag.truth then return .list (← sortValues (keyOf call named) es.reverse).reverse
      else return .list (← sortValues (keyOf call named) es)
  | .sum, [v] => do sumFrom (.int 0) (← v.items)
  | .sum, [v, start] => do
    if start.kind = .str then throw .typeError
    sumFrom start (← v.items)
  | _, _ => throw .typeError

def toWhole : Value → Except Fault Value
  | .float x => match x.toRat?, x with
    | some q, _ => return .int (q.num.tdiv q.den)
    | none, .infinite _ => throw .overflow
    | _, _ => throw (.valueError none)
  | .str s => match wholeText? s with
    | some n => return .int n
    | none => throw (.valueError none)
  | .tensor t => match t.data with
    | [e] => match e.cast .int64 with
      | .whole n => return .int n
      | .real _ => throw .typeError
    | _ => throw .runtimeError
  | v => match v.whole? with
    | some n => return .int n
    | none => throw .typeError

def toReal : Value → Except Fault Value
  | .float x => return .float x
  | .str s => match floatingText? s with
    | some x => return .float x
    | none => throw (.valueError none)
  | .tensor t => match t.data with
    | [e] => match e.cast .float64 with
      | .real x => return .float x
      | .whole _ => throw .typeError
    | _ => throw .runtimeError
  | v => match v.whole? with
    | some n => return .float (← toFloating n)
    | none => throw .typeError

def toComplex (v : Value) : Except Fault ComplexFloating :=
  match v.complexFloating? with
  | some z => z
  | none => throw .typeError

def complexOf (a b : Value) : Except Fault Value := do
  let x ← toComplex a
  let y ← toComplex b
  return .complex (if b.kind == .complex then binary64.sub x.re y.im else x.re)
    (if a.kind == .complex then binary64.add y.re x.im else y.re)

def rangeOf (bounds : List Value) : Except Fault Value := do
  let numbers ← bounds.mapM fun v => match v.position? with
    | some n => return n
    | none => throw .typeError
  match numbers with
  | [stop] => return .range 0 stop 1
  | [start, stop] => return .range start stop 1
  | [start, stop, step] => if step = 0 then throw (.valueError none) else return .range start stop step
  | _ => throw .typeError

def zipRows : Nat → List (List Value) → List (List Value)
  | 0, _ => []
  | n + 1, lists =>
    if lists.isEmpty || lists.any (·.isEmpty) then []
    else lists.filterMap (·.head?) :: zipRows n (lists.map (·.tail))

def rowsOf (vs : List Value) : Except Fault (List (List Value)) := do
  let lists ← vs.mapM items
  return zipRows ((lists.map (·.length)).foldl max 0) lists

def mappingOf (entries : List (Value × Value)) : Except Fault Value := do
  let (keys, values) ← entries.foldlM (fun (done : List Value × List Value) entry => do
    unless entry.1.isKey do throw .typeError
    let known ← done.1.mapM (same entry.1 ·)
    if known.any id then
      return (done.1, List.zipWith (fun hit v => if hit then entry.2 else v) known done.2)
    else return (done.1 ++ [entry.1], done.2 ++ [entry.2])) ([], [])
  return .dict keys values

def setOf (es : List Value) (constant : Bool) : Except Fault Value := do
  let distinct ← es.foldlM (fun (done : List Value) e => do
    unless e.isKey do throw .typeError
    if ← done.anyM (same e ·) then return done else return done ++ [e]) []
  return .set (← Value.listed distinct constant)

def Kind.call (call : Caller) (k : Kind) (args : List Value) (named : List (String × Value)) :
    Except Fault Value :=
  match k, args, named with
  | .kvector, args, named =>
    let rest := ["grade", "dim", "components"].drop args.length
    match args ++ rest.filterMap (fun name => named.lookup name) with
    | [grade, dimension, components] =>
      if args.length + named.length = 3 then buildKVector grade dimension components else throw .typeError
    | _ => throw .typeError
  | .dict, [], named => return .dict (named.map fun (k, _) => .str k) (named.map (·.2))
  | .dict, [.dict keys values], [] => return .dict keys values
  | .dict, [v], [] => do
    let entries ← (← v.items).mapM fun e => do
      match ← e.items with
      | [key, value] => return (key, value)
      | _ => throw (.valueError Option.none)
    mappingOf entries
  | .tuple, [], [] => return .tuple []
  | .tuple, [v], [] => return .tuple (← v.items)
  | .list, [], [] => return .list []
  | .list, [v], [] => return .list (← v.items)
  | .set, [], [] => return .set []
  | .set, [v], [] => do setOf (← v.items) false
  | .int, [], [] => return .int 0
  | .int, [v], [] => toWhole v
  | .float, [], [] => return .float (.finite 0)
  | .float, [v], [] => toReal v
  | .complex, [], [] => return .complex (.finite 0) (.finite 0)
  | .complex, [v], [] => return .ofComplex (← toComplex v)
  | .complex, [a, b], [] => complexOf a b
  | .bool, [], [] => return .bool false
  | .bool, [v], [] => return .bool (← v.truth)
  | .str, [], [] => return .str ""
  | .str, [v], [] => return .str v.plainText
  | .range, bounds, [] => rangeOf bounds
  | .slice, [upper], [] => return .slice .none upper .none
  | .slice, [lower, upper], [] => return .slice lower upper .none
  | .slice, [lower, upper, step], [] => return .slice lower upper step
  | .enumerate, [v], [] => do
    let es ← v.items
    return .iterator .enumerate (es.zipIdx.map fun (e, k) => .tuple [.int k, e])
  | .zip, vs, [] => return .iterator .zip ((← rowsOf vs).map .tuple)
  | .map, f :: v :: vs, [] => return .iterator .map (← (← rowsOf (v :: vs)).mapM fun row => call f row [])
  | .filter, [f, v], [] => do
    let kept ← (← v.items).filterM fun e => match f with
      | .none => e.truth
      | f => do (← call f [e] []).truth
    return .iterator .filter kept
  | .reversed, [v], [] => match v with
    | .set _ | .iterator .. => throw .typeError
    | v => return .iterator .reversed (← v.items).reverse
  | .type, [v], [] => return .type v.kind
  | .object, [], [] => return .record [] []
  | .tensor, [v], [] => do match v with
    | .tuple _ | .list _ => return .tensor (← fillTensor .default v)
    | .tensor t => return .tensor (t.cast .default)
    | _ => throw .typeError
  | _, _, _ => throw .typeError

end Bladewright.Host
