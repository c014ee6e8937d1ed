import Bladewright.Host.Statements

/-!
The statements of a text, and why a text has none. A line may be indented only under a line that opens a block, and
the line under such a line must be.
-/
namespace Bladewright.Host

namespace Indentation

/-- A line of tokens: whether it is indented under the line before it, the blocks that end before it, and
its tokens. -/
structure Line where
  indented : Bool
  closed : Nat
  tokens : List Token
deriving Inhabited

def Line.ofTokens (tokens : List Token) : Line :=
  let closed := (tokens.takeWhile (· == .dedent)).length
  match tokens.drop closed with
  | .indent :: rest => ⟨true, closed, rest⟩
  | rest => ⟨false, closed, rest⟩

def lines (line : List Token) : List Token → List Line
  | [] => if line.isEmpty then [] else [.ofTokens line.reverse]
  | .newline :: rest => .ofTokens (Token.newline :: line).reverse :: lines [] rest
  | token :: rest => lines (token :: line) rest

inductive Block where
  | plain
  | attempt
deriving DecidableEq, Repr, Inhabited

def Line.opens? (line : Line) : Option Block :=
  match line.tokens.reverse with
  | .newline :: .op ":" :: .word "try" :: _ => some .attempt
  | .newline :: .op ":" :: _ => some .plain
  | _ => none

def closing (blocks : List Block) : List Token :=
  blocks.flatMap fun block => .dedent :: match block with
    | .plain => []
    | .attempt => [.word "except", .op ":", .word "pass", .newline]

/-- What may follow a line: the body of the block that it opens, or else nothing, or what a decorator
belongs to. -/
def continuations (opened : Option Block) : List (List Token) :=
  let body : List Token := [.word "pass", .newline]
  match opened with
  | some block =>
    [body, [.name "case", .name "_", .op ":"] ++ body].map fun body => .indent :: body ++ closing [block]
  | none => [[], [.word "def", .name "f", .op "(", .op ")", .op ":"] ++ body]

def begins (depth : Nat) (before : List Token) (blocks : List Block) (opened : Option Block) : Bool :=
  (continuations opened).any fun more => (statements? (before ++ more ++ closing blocks) depth).isSome

def Line.decorates (line : Line) : Bool := line.tokens.head? == some (.op "@")

/-- Why lines make no statements, where the tokens end with a fault or with the text; `before` holds the
tokens of the lines up to `last`, in `blocks` that are still open. -/
def fault (depth : Nat) (ending : Option SyntaxFault) (before : List Token) (blocks : List Block)
    (last : Line) : List Line → SyntaxFault
  | [] =>
    let cut := last.opens?.isSome || (last.decorates && !blocks.isEmpty)
    let found := match ending with
      | some fault => if fault == .malformed then .invalid else fault
      | none => if cut then .indentation else .invalid
    if begins depth before blocks last.opens? then found else .invalid
  | line :: rest =>
    let missing := last.opens?.isSome && !line.indented
    if missing || (line.indented && last.opens?.isNone) || (last.decorates && line.closed != 0) then
      if missing && ending == some .malformed then .invalid
      else if begins depth before blocks last.opens? then .indentation
      else .invalid
    else
      let blocks := (if line.indented then last.opens?.toList else []) ++ blocks
      let front : List Token := if line.indented then [.indent] else List.replicate line.closed .dedent
      fault depth ending (before ++ front ++ line.tokens) (blocks.drop line.closed) line rest

end Indentation

def readStatements (text : String) : Except SyntaxFault (List Stmt) := do
  checkCharacters text
  let scanned := scanText text
  let depth := text.length + 1
  match statements? scanned.tokens depth, scanned.fault with
  | some found, none => return found
  | _, ending => throw (Indentation.fault depth ending [] [] default (Indentation.lines [] scanned.tokens))

end Bladewright.Host
