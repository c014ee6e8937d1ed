import Bladewright.Host.Value
import Bladewright.Tensor.Arithmetic

/-!
Equality and order of values. Numbers compare by value whatever their types, sequences element by element, and tensors
element by element with a tensor of truth values as the outcome.
-/
namespace Bladewright.Host.Value

open Bladewright.Numeral

def number? : Value → Option Floating
  | bool b => some (.finite (if b then 1 else 0))
  | int n => some (.finite n)
  | float x => some x
  | _ => Option.none

def operand? : Value → Option Tensor.Operand
  | tensor t => some ⟨t, false⟩
  | bool b => some ⟨⟨.bool, [], [.ofBool b]⟩, true⟩
  | int n => some ⟨⟨.int64, [], [.whole n]⟩, true⟩
  | float x => some ⟨⟨.default, [], [.real x]⟩, true⟩
  | _ => Option.none

/-- A number or a sequence of sequences of numbers as a tensor of a type; each number is rounded to it. -/
def ofNumber (d : Dtype) : Value → Except Fault Tensor
  | tensor t => match t.data with
    | [e] => return ⟨d, [], [e.cast d]⟩
    | _ => throw (.valueError Option.none)
  | bool b => return ⟨d, [], [(Element.ofBool b).cast d]⟩
  | int n =>
    if d.isFloating then
      match binary64.round n with
      | .infinite _ => throw .overflow
      | x => return ⟨d, [], [(Element.real x).cast d]⟩
    else if n = Element.wrap n then return ⟨d, [], [(Element.whole n).cast d]⟩
    else throw .overflow
  | float x =>
    if d = .int64 then throw .typeError else return ⟨d, [], [(Element.real x).cast d]⟩
  | _ => throw .typeError

def stackFirst (d : Dtype) : List Tensor → Except Fault Tensor
  | [] => return ⟨d, [0], []⟩
  | t :: ts =>
    if ts.all (·.shape == t.shape) then
      return ⟨d, (ts.length + 1) :: t.shape, (t :: ts).flatMap (·.data)⟩
    else throw (.valueError Option.none)

mutual

def inferDtype : Value → Except Fault Dtype
  | bool _ => return .bool
  | int _ => return .int64
  | float _ => return .default
  | tensor t => return t.dtype
  | tuple [] | list [] => return .default
  | tuple es | list es | kvector _ _ es => inferDtypes es
  | str _ => throw .typeError
  | _ => throw .runtimeError

def inferDtypes : List Value → Except Fault Dtype
  | [] => return .bool
  | e :: es => return (← inferDtype e).promote (← inferDtypes es)

end

mutual

def fillTensor (d : Dtype) : Value → Except Fault Tensor
  | tuple es | list es | kvector _ _ es => do stackFirst d (← fillTensors d es)
  | tensor t => return t.cast d
  | v => ofNumber d v

def fillTensors (d : Dtype) : List Value → Except Fault (List Tensor)
  | [] => return []
  | e :: es => return (← fillTensor d e) :: (← fillTensors d es)

end

def toTensor (v : Value) : Except Fault Tensor :=
  match v with
  | tensor t => return t
  | v => do fillTensor (← inferDtype v) v

def sameTensors (a b : Value) : Except Fault Bool :=
  return Tensor.sameElements (← a.toTensor) (← b.toTensor)

def isTensor : Value → Bool
  | tensor _ => true
  | _ => false

def equalElements (a b : Value) : Except Fault Value :=
  match a.operand?, b.operand? with
  | some x, some y => return tensor (← Tensor.compareBy (· == some .eq) x y)
  | _, _ => return bool false

mutual

def same : Value → Value → Except Fault Bool
  | none, none => return true
  | ellipsis, ellipsis => return true
  | str s, str t => return s == t
  | bytes s, bytes t => return s == t
  | complex a b, complex c d => return a.sameValue c && b.sameValue d
  | type k, type l => return k == l
  | routine r, routine s => return r == s
  | range a b c, range a' b' c' => return progression a c (stepCount a b c) == progression a' c' (stepCount a' b' c')
  | tuple es, tuple fs => sameAll es fs
  | list es, list fs => sameAll es fs
  | record names vs, record names' ws => return names == names' && (← sameAll vs ws)
  | set es, set fs => return es.length == fs.length && (← align es fs fs).isSome
  | dict ks vs, dict ls ws => do
    match ← align ks ls ws with
    | some ws' => return ks.length == ls.length && (← sameAll vs ws')
    | Option.none => return false
  | kvectorType g d, kvectorType g' d' => return (← same g g') && (← same d d')
  | kvector g d es, kvector g' d' fs => if g = g' && d = d' then sameComponents es fs else return false
  | a, b =>
    if a.isTensor || b.isTensor then do truth (← equalElements a b)
    else match a.number?, b.number? with
      | some x, some y => return x.sameValue y
      | _, _ => match a, b with
        | complex re im, b | b, complex re im => match b.number? with
          | some x => return im.isZero && re.sameValue x
          | Option.none => return false
        | _, _ => return false

def sameAll : List Value → List Value → Except Fault Bool
  | [], [] => return true
  | e :: es, f :: fs => do if ← same e f then sameAll es fs else return false
  | _, _ => return false

def sameComponents : List Value → List Value → Except Fault Bool
  | e :: es, f :: fs => do
    let equal ← if e.isTensor || f.isTensor then sameTensors e f else same e f
    if equal then sameComponents es fs else return false
  | _, _ => return true

def align : List Value → List Value → List Value → Except Fault (Option (List Value))
  | [], _, _ => return some []
  | k :: ks, keys, values => do
    let found ← (keys.zip values).filterM fun entry => same k entry.1
    match found, ← align ks keys values with
    | entry :: _, some rest => return some (entry.2 :: rest)
    | _, _ => return Option.none

end

mutual

def order : Value → Value → Except Fault (Option Ordering)
  | str s, str t => return some (compare s t)
  | tuple es, tuple fs => orderAll es fs
  | list es, list fs => orderAll es fs
  | a, b => match a.number?, b.number? with
    | some x, some y => return Floating.compare? x y
    | _, _ => throw .typeError

def orderAll : List Value → List Value → Except Fault (Option Ordering)
  | [], [] => return some .eq
  | [], _ :: _ => return some .lt
  | _ :: _, [] => return some .gt
  | e :: es, f :: fs => do if ← same e f then orderAll es fs else order e f

end

def orderBy (p : Option Ordering → Bool) (a b : Value) : Except Fault Value :=
  if a.isTensor || b.isTensor then
    match a.operand?, b.operand? with
    | some x, some y => return tensor (← Tensor.compareBy p x y)
    | _, _ => throw .typeError
  else return bool (p (← order a b))

def occurs (part : List Char) : List Char → Bool
  | [] => part.isEmpty
  | c :: cs => part.isPrefixOf (c :: cs) || occurs part cs

def isMember (a b : Value) : Except Fault Bool :=
  match a, b with
  | str s, str t => return occurs s.toList t.toList
  | _, str _ => throw .typeError
  | a, b => do
    match b with
    | dict .. | set _ => unless a.isKey do throw .typeError
    | _ => pure ()
    (← b.items).anyM (same a ·)

/-- Whether two values are one and the same; only values without parts are told apart here. -/
def identical : Value → Value → Bool
  | none, none | ellipsis, ellipsis => true
  | bool a, bool b => a == b
  | int a, int b => a == b
  | str a, str b => a == b
  | type a, type b => a == b
  | routine a, routine b => a == b
  | _, _ => false

def compareWith (a b : Value) : CompareOp → Except Fault Value
  | .eq => if a.isTensor || b.isTensor then equalElements a b else return bool (← same a b)
  | .notEq =>
    if a.isTensor || b.isTensor then
      match a.operand?, b.operand? with
      | some x, some y => return tensor (← Tensor.compareBy (· != some .eq) x y)
      | _, _ => return bool true
    else return bool !(← same a b)
  | .lt => orderBy (· == some .lt) a b
  | .le => orderBy (fun o => o == some .lt || o == some .eq) a b
  | .gt => orderBy (· == some .gt) a b
  | .ge => orderBy (fun o => o == some .gt || o == some .eq) a b
  | .is => return bool (identical a b)
  | .isNot => return bool !(identical a b)
  | .isIn => return bool (← isMember a b)
  | .notIn => return bool !(← isMember a b)

end Bladewright.Host.Value
