import Bladewright.Host.Token

/-!
How deep the reader of an expression descends. It passes through the levels of the grammar, and whatever it enters on
the way takes further levels: a bracket, a prefix operator, the right side of a power or of an alternative. The levels
are given back where the operand, the alternative or the bracket ends.
-/
namespace Bladewright.Host

/-- The levels that a bracket takes: those up to it, and those of the alternatives and nameless functions, the negations,
and the signs and powers that are open in it. -/
structure Levels where
  floor : Nat
  branches : Nat := 0
  negations : Nat := 0
  signs : Nat := 0

def Levels.count (l : Levels) : Nat := l.floor + l.branches + l.negations + l.signs

/-- Where a reader stands: in a bracket within others, before an operand or after its end. It looks past one place where
an operand follows another, to say what is wrong. -/
structure Descent where
  inner : Levels
  outer : List Levels
  ended : Bool
  lost : Bool := false

namespace Descent

/-- Before an expression the reader has passed through the levels from alternatives down to single operands. -/
def start : Descent := ⟨⟨24, 0, 0, 0⟩, [], false, false⟩

def enter (d : Descent) (levels : Nat) : Descent :=
  ⟨⟨d.inner.count + levels, 0, 0, 0⟩, d.inner :: d.outer, false, d.lost⟩

def leave (d : Descent) : Option Descent :=
  match d.outer with
  | [] => none
  | inner :: outer => some ⟨inner, outer, true, d.lost⟩

def operand (d : Descent) : Option Descent :=
  if d.ended && d.lost then none
  else some { d with inner.signs := if d.ended then 0 else d.inner.signs, ended := true, lost := d.lost || d.ended }

/-- An operator or a bracket where an operand is due. -/
def open? (d : Descent) : String → Option Descent
  | "(" => some (d.enter 28)
  | "[" | "\x7b" => some (d.enter 29)
  | ")" | "]" | "\x7d" => d.leave
  | "+" | "-" | "~" => some { d with inner.signs := d.inner.signs + 1 }
  | "not" => some { d with inner.negations := d.inner.negations + 1 }
  | "lambda" => some { d with inner.branches := d.inner.branches + 2 }
  | "None" | "True" | "False" | "..." => d.operand
  | "*" | "**" => if d.outer.isEmpty then none else some d
  | ":" | "in" | "await" => some d
  | _ => none

/-- What follows an operand: it is continued, or an operator gives back the levels of those that bind tighter. -/
def continue? (d : Descent) : String → Option Descent
  | "(" | "[" => some (d.enter 24)
  | ")" | "]" | "\x7d" => d.leave
  | "None" | "True" | "False" | "..." => d.operand
  | "." => some { d with ended := false }
  | "**" => some { d with inner.signs := d.inner.signs + 2, ended := false }
  | "else" => some { d with inner := ⟨d.inner.floor, d.inner.branches + 1, 0, 0⟩, ended := false }
  | "if" | "and" | "or" | ":" => some { d with inner := ⟨d.inner.floor, d.inner.branches, 0, 0⟩, ended := false }
  | "," => some { d with inner := ⟨d.inner.floor, 0, 0, 0⟩, ended := false }
  | _ => some { d with inner.signs := 0, ended := false }

/-- The reader after a token, unless it stops there. -/
def step (d : Descent) : Token → Option Descent
  | .name _ | .number _ => d.operand
  | .string _ _ => some { d with ended := true }
  | .op spelling | .word spelling => if d.ended then d.continue? spelling else d.open? spelling
  | .newline | .indent | .dedent => some d

/-- The most levels that are in use at a time. -/
def deepest (d : Descent) : List Token → Nat
  | [] => d.inner.count
  | t :: ts => match d.step t with
    | some d' => max d.inner.count (deepest d' ts)
    | none => d.inner.count

end Descent

/-- The levels that the reading of a text takes. -/
def levelsOf (text : String) : Nat := Descent.start.deepest (scanText text).tokens

/-- A reader has one level less than this. -/
def maxLevels : Nat := 6000

end Bladewright.Host
