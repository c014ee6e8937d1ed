import Bladewright.Host.StringLiteral

/-!
Expressions of the host language, read from tokens. Every nested construct is read by a parser of smaller depth, so
that the depth bounds the nesting; a text is never nested more deeply than it is long.
-/
namespace Bladewright.Host

/-- A parser consumes tokens from the front, or fails. -/
abbrev Parse := StateT (List Token) Option

namespace Parse

def peek? : Parse (Option Token) := return (← get).head?

def sees (spelling : String) : Parse Bool := return (← get).head? == some (.op spelling)

def seesWord (word : String) : Parse Bool := return (← get).head? == some (.ofWord word)

def skip : Parse Unit := modify List.tail

def takes (spelling : String) : Parse Bool := do
  if ← sees spelling then skip; return true
  return false

def takesWord (word : String) : Parse Bool := do
  if ← seesWord word then skip; return true
  return false

def expect (spelling : String) : Parse Unit := do
  unless ← takes spelling do failure

def expectWord (word : String) : Parse Unit := do
  unless ← takesWord word do failure

/-- What a parser finds again and again until it finds nothing, at most `fuel` times. -/
def repeated {α : Type} (p : Parse (Option α)) : Nat → Parse (List α)
  | 0 => return []
  | fuel + 1 => do
    match ← p with
    | some a => return a :: (← repeated p fuel)
    | none => return []

def many {α : Type} (p : Parse (Option α)) : Parse (List α) := do
  repeated p ((← get).length + 1)

/-- Items that follow a first one, each after a comma, up to a token that `stop` recognises. -/
def following {α : Type} (item : Parse α) (stop : Parse Bool) : Parse (List α) :=
  many do
    if ← sees "," then
      let before ← get
      skip
      if ← stop then
        set before
        return none
      return some (← item)
    return none

/-- Items divided by commas; a comma may follow the last one, and whether it does is told. -/
def separated {α : Type} (item : Parse α) (stop : Parse Bool) : Parse (List α × Bool) := do
  if ← stop then return ([], false)
  let first ← item
  let rest ← following item stop
  let trailing ← takes ","
  return (first :: rest, trailing)

/-- What follows a first item up to and with a closing bracket. -/
def others {α : Type} (item : Parse α) (close : String) : Parse (List α) := do
  let rest ← following item (sees close)
  let _ ← takes ","
  expect close
  return rest

end Parse

open Parse

def identifier : Parse String := do
  match ← peek? with
  | some (.name id) => skip; return id
  | _ => failure

structure Nested where
  expression : Parse Expr
  namedExpression : Parse Expr
  starExpressions : Parse Expr
  bitOr : Parse Expr
  factor : Parse Expr
  inversion : Parse Expr
  disjunction : Parse Expr
  targets : Parse Expr

def Nested.none : Nested :=
  ⟨failure, failure, failure, failure, failure, failure, failure, failure⟩

mutual

def isTarget (starred : Bool) : Expr → Bool
  | .name _ | .attribute .. | .subscript .. => true
  | .tuple elements | .list elements => areTargets elements
  | .starred value => starred && isTarget false value
  | _ => false

def areTargets : List Expr → Bool
  | [] => true
  | e :: es => isTarget true e && areTargets es

end

def isSingleTarget : Expr → Bool
  | .name _ | .attribute .. | .subscript .. => true
  | _ => false

namespace Grammar

/-! ### Operators -/

def chain (operand : Parse Expr) (ops : List (String × BinaryOp)) : Parse Expr := do
  let first ← operand
  let rest ← many do
    let next ← peek?
    match ops.find? fun (spelling, _) => next == some (.op spelling) with
    | some (_, op) => skip; return some (op, ← operand)
    | none => return none
  return rest.foldl (fun left (op, right) => .binary op left right) first

def startsExpression : Parse Bool := do
  match ← peek? with
  | some (.name _) => return true
  | some (.word w) => return ["None", "True", "False", "lambda", "not", "await"].contains w
  | some (.number _) | some (.string ..) => return true
  | some (.op o) => return ["(", "[", "\x7b", "+", "-", "~", "..."].contains o
  | _ => return false

def startsStarExpression : Parse Bool := do
  if ← sees "*" then return true
  startsExpression

/-! ### Parameters -/

structure ParamState where
  positional : List Expr := []
  regular : List Expr := []
  rest : Option Expr := none
  keywords : List Expr := []
  keywordRest : Option Expr := none
  starred : Bool := false
  bare : Bool := false

def param (n : Nested) (hints star : Bool) : Parse Expr := do
  let id ← identifier
  if hints then
    if ← takes ":" then
      if star then
        if ← takes "*" then return .param id (some (.starred (← n.bitOr))) none
      return .param id (some (← n.expression)) none
  return .param id none none

def paramItem (n : Nested) (hints : Bool) (state : ParamState) : Parse ParamState := do
  if state.keywordRest.isSome then failure
  if ← takes "/" then
    if state.starred || !state.positional.isEmpty || state.regular.isEmpty then failure
    return { state with positional := state.regular, regular := [] }
  if ← takes "**" then
    if state.bare then failure
    let p ← param n hints false
    return { state with keywordRest := some p }
  if ← takes "*" then
    if state.starred then failure
    if ← sees "," then return { state with starred := true, bare := true }
    let p ← param n hints true
    return { state with starred := true, rest := some p }
  let p ← param n hints false
  let p ← match p, ← takes "=" with
    | .param id hint _, true => do pure (Expr.param id hint (some (← n.expression)))
    | p, _ => pure p
  if state.starred then
    return { state with keywords := state.keywords ++ [p], bare := false }
  let earlier := state.positional ++ state.regular
  if p.default?.isNone && earlier.any (·.default?.isSome) then failure
  return { state with regular := state.regular ++ [p] }

def paramItems (n : Nested) (hints : Bool) (stop : String) : Nat → ParamState → Parse ParamState
  | 0, _ => failure
  | fuel + 1, state => do
    if ← sees stop then return state
    let state ← paramItem n hints state
    if ← takes "," then paramItems n hints stop fuel state
    else if ← sees stop then return state
    else failure

def params (n : Nested) (hints : Bool) (stop : String) : Parse Expr := do
  let state ← paramItems n hints stop ((← get).length + 1) {}
  if state.bare then failure
  return .params state.positional state.regular state.rest state.keywords state.keywordRest

/-! ### Strings -/

mutual

/-- The expression of a piece of a formatted string; its text is read as if it stood in parentheses. -/
def pieceExprs (n : Nested) (mark : Bool) : StringLiteral.Piece → Option (List Expr)
  | .text chars => some [.literal (.str (String.ofList chars) mark)]
  | .field expression shown conversion format => do
    let tokens ← tokens? (String.ofList ('(' :: expression ++ [')']))
    let (value, rest) ← n.starExpressions.run tokens
    if rest ≠ [.newline] then none
    let spec ← formatExpr n mark format
    let conversion := match shown, conversion, spec with
      | some _, none, none => some 'r'
      | _, conversion, _ => conversion
    let before := match shown with
      | some chars => [Expr.literal (.str (String.ofList chars) mark)]
      | none => []
    some (before ++ [.formatted value conversion spec])

def formatExpr (n : Nested) (mark : Bool) : Option (List StringLiteral.Piece) → Option (Option Expr)
  | none => some none
  | some format => do some (some (.joined (← pieceListExprs n mark format)))

def pieceListExprs (n : Nested) (mark : Bool) : List StringLiteral.Piece → Option (List Expr)
  | [] => some []
  | p :: ps => do return (← pieceExprs n mark p) ++ (← pieceListExprs n mark ps)

end

/-- Neighbouring literal pieces joined into one; empty ones vanish. -/
def mergeText (mark : Bool) : List Expr → List Expr
  | [] => []
  | .literal (.str s _) :: rest =>
    match mergeText mark rest with
    | .literal (.str t _) :: more => .literal (.str (s ++ t) mark) :: more
    | more => if s.isEmpty then more else .literal (.str s mark) :: more
  | e :: rest => e :: mergeText mark rest

def concatenated (n : Nested) (parts : List (StringMarks × List Char)) : Option Expr := do
  let mark := (parts.head?.map (·.1.unicode)).getD false
  if parts.all (·.1.bytes) then
    let pieces ← parts.mapM fun (marks, body) => StringLiteral.bytes? marks body
    return .literal (.bytes pieces.flatten)
  if parts.any (·.1.bytes) then none
  if parts.any (·.1.formatted) then
    let pieces ← parts.mapM fun (marks, body) => do
      if marks.formatted then pieceListExprs n mark (← StringLiteral.pieces? marks body)
      else return [.literal (.str (String.ofList (← StringLiteral.characters? marks body)) mark)]
    return .joined (mergeText mark pieces.flatten)
  let pieces ← parts.mapM fun (marks, body) => StringLiteral.characters? marks body
  return .literal (.str (String.ofList pieces.flatten) mark)

def strings (n : Nested) : Parse Expr := do
  let parts ← many do
    match ← peek? with
    | some (.string marks body) => skip; return some (marks, body)
    | _ => return none
  match concatenated n parts with
  | some e => return e
  | none => failure

/-! ### Brackets -/

def seesClause : Parse Bool := do
  if ← seesWord "for" then return true
  match ← get with
  | .word "async" :: .word "for" :: _ => return true
  | _ => return false

def clause (n : Nested) : Parse Expr := do
  let async ← takesWord "async"
  expectWord "for"
  let target ← n.targets
  expectWord "in"
  let source ← n.disjunction
  let conditions ← many do
    if ← takesWord "if" then return some (← n.disjunction)
    return none
  return .clause async target source conditions

def clauses (n : Nested) : Parse (List Expr) :=
  many do
    if ← seesClause then return some (← clause n)
    return none

def starNamed (n : Nested) : Parse Expr := do
  if ← takes "*" then return .starred (← n.bitOr)
  n.namedExpression

def isStarred : Expr → Bool
  | .starred _ => true
  | _ => false

def yieldExpr (n : Nested) : Parse Expr := do
  expectWord "yield"
  if ← takesWord "from" then return .yieldFrom (← n.expression)
  if ← startsStarExpression then return .yield (some (← n.starExpressions))
  return .yield none

def roundBrackets (n : Nested) : Parse Expr := do
  if ← takes ")" then return .tuple []
  if ← seesWord "yield" then
    let e ← yieldExpr n
    expect ")"
    return e
  let first ← starNamed n
  if ← sees "," then return .tuple (first :: (← others (starNamed n) ")"))
  if isStarred first then failure
  if ← seesClause then
    let cs ← clauses n
    expect ")"
    return .comprehension .round first none cs
  expect ")"
  return first

def squareBrackets (n : Nested) : Parse Expr := do
  if ← takes "]" then return .list []
  let first ← starNamed n
  if ← seesClause then
    if isStarred first then failure
    let cs ← clauses n
    expect "]"
    return .comprehension .square first none cs
  return .list (first :: (← others (starNamed n) "]"))

def entry (n : Nested) : Parse Expr := do
  if ← takes "**" then return .entry none (← n.bitOr)
  let key ← n.expression
  expect ":"
  return .entry (some key) (← n.expression)

def braces (n : Nested) : Parse Expr := do
  if ← takes "\x7d" then return .mapping []
  let before ← get
  if ← sees "**" then
    let (entries, _) ← separated (entry n) (sees "\x7d")
    expect "\x7d"
    return .mapping entries
  let first ← starNamed n
  if ← sees ":" then
    set before
    let first ← entry n
    if ← seesClause then
      let cs ← clauses n
      expect "\x7d"
      match first with
      | .entry (some key) value => return .comprehension .braces key (some value) cs
      | _ => failure
    return .mapping (first :: (← others (entry n) "\x7d"))
  if ← seesClause then
    if isStarred first then failure
    let cs ← clauses n
    expect "\x7d"
    return .comprehension .braces first none cs
  return .set (first :: (← others (starNamed n) "\x7d"))

/-! ### Primaries -/

def atom (n : Nested) : Parse Expr := do
  match ← peek? with
  | some (.word "None") => skip; return .literal .none
  | some (.word "True") => skip; return .literal .true
  | some (.word "False") => skip; return .literal .false
  | some (.name _) => return .name (← identifier)
  | some (.number value) => skip; return .literal value
  | some (.string ..) => strings n
  | some (.op "...") => skip; return .literal .ellipsis
  | some (.op "(") => skip; roundBrackets n
  | some (.op "[") => skip; squareBrackets n
  | some (.op "\x7b") => skip; braces n
  | _ => failure

def argument (n : Nested) : Parse Expr := do
  if ← takes "*" then return .starred (← n.expression)
  if ← takes "**" then return .keyword none (← n.expression)
  match ← get with
  | .name id :: .op "=" :: _ =>
    skip
    skip
    return .keyword (some id) (← n.expression)
  | _ =>
    let e ← n.namedExpression
    if ← sees "=" then failure
    return e

/-- Whether arguments come in an order that a call allows: no plain argument after a named one, and
no starred one after a doubly starred one. -/
def argumentsOrdered : Bool → Bool → List Expr → Bool
  | _, _, [] => true
  | _, unpacked, .keyword name _ :: rest => argumentsOrdered true (unpacked || name.isNone) rest
  | named, unpacked, .starred _ :: rest => !unpacked && argumentsOrdered named unpacked rest
  | named, unpacked, _ :: rest => !named && argumentsOrdered named unpacked rest

def isKeyword : Expr → Bool
  | .keyword .. => true
  | _ => false

def arguments (n : Nested) : Parse (List Expr × List Expr) := do
  if ← takes ")" then return ([], [])
  let first ← argument n
  if ← seesClause then
    if isStarred first || isKeyword first then failure
    let cs ← clauses n
    expect ")"
    return ([.comprehension .round first none cs], [])
  let all := first :: (← others (argument n) ")")
  unless argumentsOrdered false false all do failure
  return (all.filter (!isKeyword ·), all.filter isKeyword)

def sliceItem (n : Nested) : Parse Expr := do
  if ← takes "*" then return .starred (← n.expression)
  let lower ← if ← sees ":" then pure none else some <$> n.namedExpression
  let seesEnd : Parse Bool := do return (← sees ":") || (← sees ",") || (← sees "]")
  if ← takes ":" then
    if let some (.named ..) := lower then failure
    let upper ← if ← seesEnd then pure none else some <$> n.expression
    let step ← if ← takes ":" then
        if ← seesEnd then pure none else some <$> n.expression
      else pure none
    return .slice lower upper step
  match lower with
  | some e => return e
  | none => failure

def index (n : Nested) : Parse Expr := do
  let first ← sliceItem n
  if ← sees "," then return .tuple (first :: (← others (sliceItem n) "]"))
  expect "]"
  return if isStarred first then .tuple [first] else first

inductive Trailer where
  | field (name : String)
  | call (args keywords : List Expr)
  | index (e : Expr)

def Trailer.apply (e : Expr) : Trailer → Expr
  | .field name => .attribute e name
  | .call args named => .call e args named
  | .index i => .subscript e i

def trailer (n : Nested) : Parse (Option Trailer) := do
  if ← takes "." then return some (.field (← identifier))
  if ← takes "(" then
    let (args, named) ← arguments n
    return some (.call args named)
  if ← takes "[" then return some (.index (← index n))
  return none

def primary (n : Nested) : Parse Expr := do
  let first ← atom n
  return (← many (trailer n)).foldl Trailer.apply first

def awaitPrimary (n : Nested) : Parse Expr := do
  if ← takesWord "await" then return .await (← primary n)
  primary n

def power (n : Nested) : Parse Expr := do
  let base ← awaitPrimary n
  if ← takes "**" then return .binary .pow base (← n.factor)
  return base

def factor (n : Nested) : Parse Expr := do
  if ← takes "+" then return .unary .plus (← n.factor)
  if ← takes "-" then return .unary .minus (← n.factor)
  if ← takes "~" then return .unary .invert (← n.factor)
  power n

def term (n : Nested) : Parse Expr :=
  chain (factor n) [("*", .mul), ("/", .div), ("//", .floorDiv), ("%", .mod), ("@", .matMul)]

def sum (n : Nested) : Parse Expr := chain (term n) [("+", .add), ("-", .sub)]

def shift (n : Nested) : Parse Expr := chain (sum n) [("<<", .shiftLeft), (">>", .shiftRight)]

def bitAnd (n : Nested) : Parse Expr := chain (shift n) [("&", .bitAnd)]

def bitXor (n : Nested) : Parse Expr := chain (bitAnd n) [("^", .bitXor)]

def bitOr (n : Nested) : Parse Expr := chain (bitXor n) [("|", .bitOr)]

def comparator : Parse (Option CompareOp) := do
  match ← get with
  | .op "==" :: rest => set rest; return some .eq
  | .op "!=" :: rest => set rest; return some .notEq
  | .op "<" :: rest => set rest; return some .lt
  | .op "<=" :: rest => set rest; return some .le
  | .op ">" :: rest => set rest; return some .gt
  | .op ">=" :: rest => set rest; return some .ge
  | .word "in" :: rest => set rest; return some .isIn
  | .word "not" :: .word "in" :: rest => set rest; return some .notIn
  | .word "is" :: .word "not" :: rest => set rest; return some .isNot
  | .word "is" :: rest => set rest; return some .is
  | _ => return none

def comparison (n : Nested) : Parse Expr := do
  let first ← bitOr n
  let rest ← many do
    match ← comparator with
    | some op => return some (op, ← bitOr n)
    | none => return none
  if rest.isEmpty then return first
  return .comparison first (rest.map (·.1)) (rest.map (·.2))

def inversion (n : Nested) : Parse Expr := do
  if ← takesWord "not" then return .unary .not (← n.inversion)
  comparison n

def conjunction (n : Nested) : Parse Expr := do
  let first ← inversion n
  let rest ← many do
    if ← takesWord "and" then return some (← inversion n)
    return none
  return if rest.isEmpty then first else .conjunction (first :: rest)

def disjunction (n : Nested) : Parse Expr := do
  let first ← conjunction n
  let rest ← many do
    if ← takesWord "or" then return some (← conjunction n)
    return none
  return if rest.isEmpty then first else .disjunction (first :: rest)

def expression (n : Nested) : Parse Expr := do
  if ← takesWord "lambda" then
    let parameters ← params n false ":"
    expect ":"
    return .lambda parameters (← n.expression)
  let body ← disjunction n
  if ← takesWord "if" then
    let test ← disjunction n
    expectWord "else"
    return .conditional test body (← n.expression)
  return body

def namedExpression (n : Nested) : Parse Expr := do
  match ← get with
  | .name id :: .op ":=" :: _ =>
    skip
    skip
    return .named (.name id) (← n.expression)
  | _ =>
    let e ← expression n
    if ← sees ":=" then failure
    return e

def starExpression (n : Nested) : Parse Expr := do
  if ← takes "*" then return .starred (← bitOr n)
  expression n

def starExpressions (n : Nested) : Parse Expr := do
  let first ← starExpression n
  if ← sees "," then
    skip
    let (rest, _) ← separated (starExpression n) (return !(← startsStarExpression))
    return .tuple (first :: rest)
  return first

def expressions (n : Nested) : Parse Expr := do
  let first ← expression n
  if ← takes "," then
    let (rest, _) ← separated (expression n) (return !(← startsExpression))
    return .tuple (first :: rest)
  return first

def target (n : Nested) : Parse Expr := do
  if ← takes "*" then return .starred (← primary n)
  primary n

def targets (n : Nested) : Parse Expr := do
  let first ← target n
  let e ← if ← takes "," then
      let (rest, _) ← separated (target n) (return !(← startsStarExpression))
      pure (.tuple (first :: rest))
    else pure first
  unless isTarget true e do failure
  return e

end Grammar

def Nested.ofDepth : Nat → Nested
  | 0 => .none
  | depth + 1 =>
    let n := Nested.ofDepth depth
    { expression := Grammar.expression n
      namedExpression := Grammar.namedExpression n
      starExpressions := Grammar.starExpressions n
      bitOr := Grammar.bitOr n
      factor := Grammar.factor n
      inversion := Grammar.inversion n
      disjunction := Grammar.disjunction n
      targets := Grammar.targets n }

def endsIndented (text : String) : Bool :=
  let last := ((Token.normalLines text.toList).reverse.takeWhile (· != '\n')).reverse
  match Token.indentation 0 0 0 last with
  | some (width, _, []) => width != 0
  | _ => false

def checkCharacters (text : String) : Except SyntaxFault Unit :=
  if text.toList.any Text.isSurrogate then .error .surrogate
  else if text.toList.contains '\x00' then .error .nullCharacter
  else .ok ()

def Expr.read (text : String) : Except SyntaxFault Expr := do
  checkCharacters text
  let scanned := scanText text
  match scanned.tokens with
  | .indent :: _ => throw .indentation
  | tokens =>
    match (Grammar.expressions (Nested.ofDepth (text.length + 1))).run tokens with
    | none => throw (if tokens.isEmpty && scanned.fault.isNone && endsIndented text then .indentation else .invalid)
    | some (e, rest) =>
      match rest.dropWhile (· == .newline), scanned.fault with
      | .indent :: _, _ => throw .indentation
      | [], none => if endsIndented text then throw .indentation else return e
      | _, _ => throw .invalid

end Bladewright.Host
