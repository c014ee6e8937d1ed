import Bladewright.Setting.Basic

/-!
Interpolations: a dollar sign and braces in the text of a setting stand for another setting, named by the keys that
lead to it from the root, or with dots in front from a mapping around the text.
-/
namespace Bladewright.Setting

open Bladewright.Host

inductive Piece where
  | text (chars : List Char)
  /-- The setting under some keys, from the root or from so many levels up. -/
  | node (levels : Nat) (keys : List Piece)
  | function (name : List Char)
deriving Inhabited

def isKeyChar (c : Char) : Bool := !("\\\x7b\x7d()[]:. \t'\"$".toList.contains c)

def afterBraces : Nat → List Char → Option (List Char)
  | _, [] => none
  | depth, '\x7b' :: cs => afterBraces (depth + 1) cs
  | depth, '\x7d' :: cs => match depth with
    | 0 => some cs
    | depth + 1 => afterBraces depth cs
  | depth, _ :: cs => afterBraces depth cs

def skipBlanks (cs : List Char) : List Char := cs.dropWhile fun c => c == ' ' || c == '\t'

mutual

def interpolation : Nat → List Char → Option (Piece × List Char)
  | 0, _ => none
  | fuel + 1, cs => do
    let cs := skipBlanks cs
    let levels := (cs.takeWhile (· == '.')).length
    let (keys, rest) ← keyPath fuel true (cs.drop levels)
    match skipBlanks rest with
    | '\x7d' :: rest => return (.node levels keys, rest)
    | ':' :: rest =>
      if levels != 0 then none
      let rest ← afterBraces 0 rest
      return (.function (cs.takeWhile (· != ':')), rest)
    | _ => none

/-- The keys of a path. The first stands by itself, the others behind a dot or in square brackets. -/
def keyPath : Nat → Bool → List Char → Option (List Piece × List Char)
  | 0, _, _ => none
  | fuel + 1, first, cs =>
    let start := match cs with
      | '[' :: inside => some (inside, true)
      | '.' :: inside => if first then none else some (inside, false)
      | cs => if first then some (cs, false) else none
    match start with
    | none => if first then none else some ([], cs)
    | some (inside, bracketed) => do
      let (key, rest) ← oneKey fuel inside
      let rest ← match bracketed, rest with
        | false, rest => some rest
        | true, ']' :: rest => some rest
        | true, _ => none
      let (keys, rest) ← keyPath fuel false rest
      return (key :: keys, rest)

def oneKey : Nat → List Char → Option (Piece × List Char)
  | 0, _ => none
  | fuel + 1, cs => match cs with
    | '$' :: '\x7b' :: inside => interpolation fuel inside
    | cs =>
      let chars := cs.takeWhile isKeyChar
      if chars.isEmpty then none else some (.text chars, cs.drop chars.length)

end

/-- The pieces of a text; `done` holds the characters of the present one in reverse. -/
def pieces : Nat → List Char → List Char → Option (List Piece)
  | 0, _, _ => none
  | fuel + 1, done, cs =>
    let before := if done.isEmpty then [] else [Piece.text done.reverse]
    match cs with
    | [] => some before
    | '\\' :: rest =>
      let count := (rest.takeWhile (· == '\\')).length + 1
      match cs.drop count with
      | '$' :: '\x7b' :: inside =>
        let kept := List.replicate (count / 2) '\\' ++ done
        if count % 2 = 1 then pieces fuel ('\x7b' :: '$' :: kept) inside
        else pieces fuel kept ('$' :: '\x7b' :: inside)
      | after => pieces fuel (List.replicate count '\\' ++ done) after
    | '$' :: '\x7b' :: inside => do
      let (piece, rest) ← interpolation (inside.length + 1) inside
      return before ++ piece :: (← pieces fuel [] rest)
    | c :: rest => pieces fuel (c :: done) rest

def interpolates : List Char → Bool
  | '$' :: '\x7b' :: _ => true
  | _ :: cs => interpolates cs
  | [] => false

def piecesOf? (s : String) : Option (List Piece) := pieces (2 * s.length + 2) [] s.toList

mutual

def isWellFormed : Datum → Bool
  | .str s => !interpolates s.toList || (piecesOf? s).isSome
  | .list es => areWellFormed es
  | .mapping _ values => areWellFormed values
  | _ => true

def areWellFormed : List Datum → Bool
  | [] => true
  | d :: ds => isWellFormed d && areWellFormed ds

end

def plainText : Datum → String
  | .str s => s
  | value => value.text

def child? (d : Datum) (key : String) : Option Datum :=
  match d with
  | .mapping .. => (entries d).lookup key
  | .list es => match key.toInt? with
    | some n => es[(if n < 0 then n + es.length else n).toNat]?
    | none => none
  | _ => none

structure Place where
  path : List String
  value : Datum
deriving Inhabited

mutual

def follow (root : Datum) : Nat → Place → Except Fault Place
  | 0, _ => throw .circular
  | fuel + 1, place => match place.value with
    | .str s =>
      if !interpolates s.toList then return place
      else match piecesOf? s with
        | none => throw .malformed
        | some [.text chars] => return ⟨place.path, .str (String.ofList chars)⟩
        | some [piece] => followPiece root fuel place.path piece
        | some pieces => do return ⟨place.path, .str (String.join (← pieceTexts root fuel place.path pieces))⟩
    | _ => return place

def followPiece (root : Datum) : Nat → List String → Piece → Except Fault Place
  | 0, _, _ => throw .circular
  | fuel + 1, path, piece => match piece with
    | .text chars => return ⟨path, .str (String.ofList chars)⟩
    | .function _ => throw .unknownFunction
    | .node levels keys => do
      let keys ← pieceTexts root fuel path keys
      let start := if levels = 0 then [] else path.take (path.length - levels)
      let found ← descend root fuel ⟨[], root⟩ (start ++ keys)
      if isMissing found.value then throw .toMissing else return found

def descend (root : Datum) : Nat → Place → List String → Except Fault Place
  | 0, _, _ => throw .circular
  | _ + 1, place, [] => return place
  | fuel + 1, place, key :: keys => match child? place.value key with
    | none => throw .unknownKey
    | some value => do descend root fuel (← follow root fuel ⟨place.path ++ [key], value⟩) keys

def pieceTexts (root : Datum) : Nat → List String → List Piece → Except Fault (List String)
  | 0, _, _ => throw .circular
  | _ + 1, _, [] => return []
  | fuel + 1, path, piece :: pieces => do
    let found ← followPiece root fuel path piece
    return plainText found.value :: (← pieceTexts root fuel path pieces)

end

def followLimit : Nat := 200

mutual

/-- A setting with all interpolations in it followed. With `strict`, no value may be missing. -/
def settled (root : Datum) (strict : Bool) : Nat → Place → Except Fault Datum
  | 0, _ => throw .circular
  | fuel + 1, place => do
    let found ← follow root followLimit place
    match found.value with
    | .mapping keys values =>
      return .mapping keys (← settledAll root strict fuel found.path (keys.map plainText) values)
    | .list es =>
      return .list (← settledAll root strict fuel found.path ((List.range es.length).map toString) es)
    | value => if strict && isMissing value then throw .missing else return value

def settledAll (root : Datum) (strict : Bool) :
    Nat → List String → List String → List Datum → Except Fault (List Datum)
  | 0, _, _, _ => throw .circular
  | fuel + 1, path, key :: keys, value :: values => do
    let first ← settled root strict fuel ⟨path ++ [key], value⟩
    return first :: (← settledAll root strict fuel path keys values)
  | _ + 1, _, _, _ => return []

end

end Bladewright.Setting
