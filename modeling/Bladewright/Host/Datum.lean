import Bladewright.Host.Descent
import Bladewright.Host.Grammar
import Bladewright.Host.SetOrder
import Bladewright.Host.Walk
import Bladewright.Numeral.Hash

/-!
Plain data of the host language: the values that literals denote, how they are written, which of them can be told
apart as keys, and in which order a collection lists its elements.
-/
namespace Bladewright.Host

open Bladewright.Numeral

/-- A value that a literal denotes. A mapping lists its keys and, in the same order, its values. -/
inductive Datum where
  | none
  | ellipsis
  | bool (value : Bool)
  | int (value : Int)
  | float (value : Floating)
  | complex (re im : Floating)
  | str (value : String)
  | bytes (value : List UInt8)
  | tuple (elements : List Datum)
  | list (elements : List Datum)
  | set (elements : List Datum)
  | mapping (keys values : List Datum)
deriving Inhabited

namespace Datum

def partText (x : Floating) : String :=
  let cs := x.text.toList
  if ['.', '0'].isSuffixOf cs then String.ofList (cs.take (cs.length - 2)) else x.text

def complexText (re im : Floating) : String :=
  if re = .finite 0 then partText im ++ "j"
  else "(" ++ partText re ++ (if im.signed then "" else "+") ++ partText im ++ "j)"

mutual

def text : Datum → String
  | none => "None"
  | ellipsis => "Ellipsis"
  | bool b => if b then "True" else "False"
  | int n => toString n
  | float x => x.text
  | complex re im => complexText re im
  | str s => Text.quoted s
  | bytes b => Text.quotedBytes b
  | tuple [e] => "(" ++ text e ++ ",)"
  | tuple es => "(" ++ ", ".intercalate (texts es) ++ ")"
  | list es => "[" ++ ", ".intercalate (texts es) ++ "]"
  | set [] => "set()"
  | set es => "\x7b" ++ ", ".intercalate (texts es) ++ "\x7d"
  | mapping keys values => "\x7b" ++ ", ".intercalate (entryTexts (texts keys) (texts values)) ++ "\x7d"

def texts : List Datum → List String
  | [] => []
  | e :: es => text e :: texts es

def entryTexts : List String → List String → List String
  | k :: ks, v :: vs => (k ++ ": " ++ v) :: entryTexts ks vs
  | _, _ => []

end

mutual

def isWritable : Datum → Bool
  | int n => Numeral.isWritable n
  | tuple es | list es | set es => areWritable es
  | mapping keys values => areWritable keys && areWritable values
  | _ => true

def areWritable : List Datum → Bool
  | [] => true
  | e :: es => isWritable e && areWritable es

end

mutual

def isKey : Datum → Bool
  | list _ | set _ | mapping .. => false
  | tuple es => areKeys es
  | _ => true

def areKeys : List Datum → Bool
  | [] => true
  | e :: es => isKey e && areKeys es

end

def parts? : Datum → Option (Floating × Floating)
  | bool b => some (.finite (if b then 1 else 0), .finite 0)
  | int n => some (.finite n, .finite 0)
  | float x => some (x, .finite 0)
  | complex re im => some (re, im)
  | _ => Option.none

mutual

/-- Whether two keys are one: numbers by value, whatever their type. -/
def sameKey : Datum → Datum → Bool
  | none, none => true
  | ellipsis, ellipsis => true
  | str s, str t => s == t
  | bytes b, bytes c => b == c
  | tuple es, tuple fs => sameKeys es fs
  | a, b => match parts? a, parts? b with
    | some (re, im), some (re', im') => re.sameValue re' && im.sameValue im'
    | _, _ => false

def sameKeys : List Datum → List Datum → Bool
  | [], [] => true
  | e :: es, f :: fs => sameKey e f && sameKeys es fs
  | _, _ => false

end

mutual

def signedHash? : Datum → Option Int
  | tuple es => (signedHashes? es).map Numeral.tupleHash
  | d => match parts? d with
    | some (re, im) => do return Numeral.complexHash (← re.hash?) (← im.hash?)
    | Option.none => Option.none

def signedHashes? : List Datum → Option (List Int)
  | [] => some []
  | d :: ds => do return (← signedHash? d) :: (← signedHashes? ds)

end

def hash? (d : Datum) : Option Nat := (signedHash? d).map Numeral.wordOf

/-- Distinct keys in the order in which a set lists them. -/
def listed (elements : List Datum) : List Datum := 
  SetOrder.ofHashes (elements.map fun d => ((hash? d).getD 0, d)) false

def insertKey (elements : List Datum) (d : Datum) : List Datum :=
  if elements.any (sameKey d) then elements else elements ++ [d]

/-- Sets the value of a key; a key that is there already keeps its place and its form. -/
def insertEntry (keys values : List Datum) (key value : Datum) : List Datum × List Datum :=
  match keys, values with
  | k :: ks, v :: vs =>
    if sameKey key k then (k :: ks, value :: vs)
    else let (ks, vs) := insertEntry ks vs key value; (k :: ks, v :: vs)
  | _, _ => ([key], [value])

/-- What a value yields one after the other, if it is a collection. -/
def elements? : Datum → Option (List Datum)
  | str s => some (s.toList.map fun c => str c.toString)
  | bytes b => some (b.map fun u => int u.toNat)
  | tuple es | list es | set es => some es
  | mapping keys _ => some keys
  | _ => Option.none

/-- Why a text denotes no value: it is no literal, a set or mapping has an unfit key, an integer does not fit the
floating-point part of a complex number, its reader runs out of levels, or its expression is too high to be built. -/
inductive ReadError where
  | malformed
  | unfitKey
  | tooLarge
  | tooNested
  | tooHigh
deriving DecidableEq, Repr

def ofLiteral : Literal → Except ReadError Datum
  | .none => return none
  | .true => return bool true
  | .false => return bool false
  | .ellipsis => return ellipsis
  | .int n => return int n
  | .float x => return float x
  | .imaginary x => return complex (.finite 0) x
  | .str s _ => return str s
  | .bytes b => return bytes b
  | .foreign _ => throw .malformed

def ofNumber : Expr → Except ReadError Datum
  | .literal (.int n) => return int n
  | .literal (.float x) => return float x
  | .literal (.imaginary x) => return complex (.finite 0) x
  | _ => throw .malformed

def ofSignedNumber : Expr → Except ReadError Datum
  | .unary .plus e => ofNumber e
  | .unary .minus e => do
    match ← ofNumber e with
    | int n => return int (-n)
    | float x => return float x.neg
    | complex re im => return complex re.neg im.neg
    | d => return d
  | e => ofNumber e

def realPart : Datum → Except ReadError Floating
  | int n => match binary64.round n with
    | .infinite _ => throw .tooLarge
    | x => return x
  | float x => return x
  | _ => throw .malformed

def joinParts (subtract : Bool) (left right : Datum) : Except ReadError Datum :=
  match right with
  | complex re im => do
    let sign := if subtract then Floating.neg else id
    return complex (binary64.add (← realPart left) (sign re)) (binary64.add (.finite 0) (sign im))
  | _ => throw .malformed

mutual

def ofExpr : Expr → Except ReadError Datum
  | .literal l => ofLiteral l
  | .tuple es => return tuple (← ofExprs es)
  | .list es => return list (← ofExprs es)
  | .set es => return set (listed (← ofElements es []))
  | .call (.name "set") [] [] => return set []
  | .mapping es => do
    let (keys, values) ← ofEntries es [] []
    return mapping keys values
  | .binary .add l r => do joinParts false (← ofSignedNumber l) (← ofNumber r)
  | .binary .sub l r => do joinParts true (← ofSignedNumber l) (← ofNumber r)
  | e => ofSignedNumber e

def ofExprs : List Expr → Except ReadError (List Datum)
  | [] => return []
  | e :: es => return (← ofExpr e) :: (← ofExprs es)

def ofElements : List Expr → List Datum → Except ReadError (List Datum)
  | [], acc => return acc
  | e :: es, acc => do
    let d ← ofExpr e
    if d.isKey then ofElements es (insertKey acc d) else throw .unfitKey

def ofEntries : List Expr → List Datum → List Datum → Except ReadError (List Datum × List Datum)
  | [], keys, values => return (keys, values)
  | .entry (some k) v :: es, keys, values => do
    let key ← ofExpr k
    let value ← ofExpr v
    if key.isKey then
      let (keys, values) := insertEntry keys values key value
      ofEntries es keys values
    else throw .unfitKey
  | _ :: _, _, _ => throw .malformed

end

def dropIndent (s : String) : String := String.ofList (s.toList.dropWhile fun c => c == ' ' || c == '\t')

/-- The expression that a text spells; it may be indented. -/
def exprOf (s : String) : Except SyntaxFault Expr := Expr.read (dropIndent s)

/-- The greatest height of an expression that is built: three parts for each of a thousand calls, less those in use. -/
def maxHeight : Nat := 2970

def read (s : String) : Except ReadError Datum :=
  if maxLevels ≤ levelsOf (dropIndent s) then throw .tooNested
  else match exprOf s with
    | .ok e => if maxHeight < e.height then throw .tooHigh else ofExpr e
    | .error _ => throw .malformed

end Datum

end Bladewright.Host
