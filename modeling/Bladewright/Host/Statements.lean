import Bladewright.Host.Grammar

/-!
Statements of the host language, read from tokens.
-/
namespace Bladewright.Host

open Parse Grammar

def lineEnd : Parse Unit := do
  match ← peek? with
  | some .newline => skip
  | _ => failure

namespace Grammar

/-! ### Simple statements -/

def assigned (n : Nested) : Parse Expr := do
  if ← seesWord "yield" then yieldExpr n else starExpressions n

def augmentation : Parse (Option BinaryOp) := do
  let ops : List (String × BinaryOp) :=
    [("+=", .add), ("-=", .sub), ("*=", .mul), ("@=", .matMul), ("/=", .div), ("%=", .mod),
      ("&=", .bitAnd), ("|=", .bitOr), ("^=", .bitXor), ("<<=", .shiftLeft), (">>=", .shiftRight),
      ("**=", .pow), ("//=", .floorDiv)]
  let next ← peek?
  match ops.find? fun (spelling, _) => next == some (.op spelling) with
  | some (_, op) => skip; return some op
  | none => return none

def expressionStatement (n : Nested) : Parse Stmt := do
  let start ← peek?
  let first ← assigned n
  if ← takes ":" then
    unless isSingleTarget first do failure
    let hint ← expression n
    let value ← if ← takes "=" then some <$> assigned n else pure none
    let simple := match first, start with
      | .name _, some (.name _) => true
      | _, _ => false
    return .annotated first hint value simple
  if let some op ← augmentation then
    unless isSingleTarget first do failure
    return .augmented first op (← assigned n)
  let rest ← many do
    if ← takes "=" then return some (← assigned n)
    return none
  match rest.getLast? with
  | none => return .expression first
  | some value =>
    let left := first :: rest.dropLast
    unless left.all (isTarget true) do failure
    return .assign left value

def dottedName : Parse String := do
  let first ← identifier
  let rest ← many do
    if ← takes "." then return some (← identifier)
    return none
  return ".".intercalate (first :: rest)

def asName : Parse (Option String) := do
  if ← takesWord "as" then return some (← identifier)
  return none

def importedNames : Parse (List Alias) := do
  let item : Parse Alias := do
    let name ← identifier
    return ⟨name, ← asName⟩
  if ← takes "*" then return [⟨"*", none⟩]
  if ← takes "(" then
    let (names, _) ← separated item (sees ")")
    if names.isEmpty then failure
    expect ")"
    return names
  let (names, trailing) ← separated item (pure false)
  if trailing then failure
  return names

def importLevel : Parse Nat := do
  let dots ← many do
    if ← takes "." then return some 1
    if ← takes "..." then return some 3
    return none
  return dots.foldl (· + ·) 0

def importStatement : Parse Stmt := do
  if ← takesWord "import" then
    let item : Parse Alias := do
      let name ← dottedName
      return ⟨name, ← asName⟩
    let (names, trailing) ← separated item (pure false)
    if trailing then failure
    return .importNames names
  expectWord "from"
  let level ← importLevel
  let module ← if ← seesWord "import" then
      if level = 0 then failure
      pure none
    else some <$> dottedName
  expectWord "import"
  return .importFrom level module (← importedNames)

def isDeletable : Expr → Bool
  | .name _ | .attribute .. | .subscript .. => true
  | .tuple elements | .list elements => elements.attach.all fun ⟨e, _⟩ => isDeletable e
  | _ => false

def deleteStatement (n : Nested) : Parse Stmt := do
  let (deleted, _) ← separated (primary n) (return !(← startsExpression))
  if deleted.isEmpty then failure
  unless deleted.all isDeletable do failure
  return .delete deleted

def nameList : Parse (List String) := do
  let (names, trailing) ← separated identifier (pure false)
  if trailing then failure
  return names

def simpleStatement (n : Nested) : Parse Stmt := do
  match ← peek? with
  | some (.word "return") =>
    skip
    return .ret (← if ← startsStarExpression then some <$> starExpressions n else pure none)
  | some (.word "import") | some (.word "from") => importStatement
  | some (.word "raise") =>
    skip
    if ← startsExpression then
      let exception ← expression n
      let cause ← if ← takesWord "from" then some <$> expression n else pure none
      return .raise (some exception) cause
    return .raise none none
  | some (.word "pass") => skip; return .pass
  | some (.word "break") => skip; return .leave
  | some (.word "continue") => skip; return .next
  | some (.word "del") => skip; deleteStatement n
  | some (.word "assert") =>
    skip
    let test ← expression n
    let message ← if ← takes "," then some <$> expression n else pure none
    return .assert test message
  | some (.word "global") => skip; return .global (← nameList)
  | some (.word "nonlocal") => skip; return .nonlocal (← nameList)
  | _ => expressionStatement n

def simpleStatements (n : Nested) : Parse (List Stmt) := do
  let first ← simpleStatement n
  let rest ← many do
    if ← takes ";" then
      if (← peek?) == some .newline then return none
      return some (← simpleStatement n)
    return none
  lineEnd
  return first :: rest

/-! ### Patterns -/

/-- Whether an expression is a number, perhaps with a sign, or the sum of a real and an imaginary one. -/
def isNumberPattern : Expr → Bool
  | .literal (.int _) | .literal (.float _) | .literal (.imaginary _) => true
  | .unary .minus (.literal (.int _)) | .unary .minus (.literal (.float _))
  | .unary .minus (.literal (.imaginary _)) => true
  | .binary .add left (.literal (.imaginary _)) | .binary .sub left (.literal (.imaginary _)) =>
    match left with
    | .literal (.int _) | .literal (.float _) => true
    | .unary .minus (.literal (.int _)) | .unary .minus (.literal (.float _)) => true
    | _ => false
  | _ => false

structure NestedPattern where
  pattern : Parse Pattern

def maybeStarPattern (p : NestedPattern) : Parse Pattern := do
  if ← takes "*" then
    let name ← identifier
    return .star (if name = "_" then none else some name)
  p.pattern

def sequencePatterns (p : NestedPattern) (close : String) : Parse (List Pattern) := do
  let (rest, _) ← separated (maybeStarPattern p) (sees close)
  expect close
  return rest

def dottedExpr : Parse Expr := do
  let first ← identifier
  let rest ← many do
    if ← takes "." then return some (← identifier)
    return none
  return rest.foldl .attribute (.name first)

def mappingItem (n : Nested) (p : NestedPattern) : Parse ((Expr × Pattern) ⊕ String) := do
  if ← takes "**" then return .inr (← identifier)
  let key ← sum n
  match key with
  | .attribute .. | .literal _ => pure ()
  | key => unless isNumberPattern key do failure
  expect ":"
  return .inl (key, ← p.pattern)

def recordItem (p : NestedPattern) : Parse (Option String × Pattern) := do
  match ← get with
  | .name id :: .op "=" :: _ =>
    skip
    skip
    return (some id, ← p.pattern)
  | _ => return (none, ← p.pattern)

def closedPattern (n : Nested) (p : NestedPattern) : Parse Pattern := do
  match ← peek? with
  | some (.op "(") =>
    skip
    if ← takes ")" then return .sequence []
    let first ← maybeStarPattern p
    if ← takes "," then return .sequence (first :: (← sequencePatterns p ")"))
    expect ")"
    match first with
    | .star _ => failure
    | first => return first
  | some (.op "[") =>
    skip
    if ← takes "]" then return .sequence []
    let first ← maybeStarPattern p
    if ← takes "," then return .sequence (first :: (← sequencePatterns p "]"))
    expect "]"
    return .sequence [first]
  | some (.op "\x7b") =>
    skip
    let (items, _) ← separated (mappingItem n p) (sees "\x7d")
    expect "\x7d"
    let pairs := items.filterMap fun | .inl pair => some pair | .inr _ => none
    let rests := items.filterMap fun | .inl _ => none | .inr name => some name
    if 1 < rests.length then failure
    match items.getLast?, rests with
    | some (.inl _), _ :: _ => failure
    | _, _ => return .mapping (pairs.map (·.1)) (pairs.map (·.2)) rests.head?
  | some (.word "None") | some (.word "True") | some (.word "False") => return .value (← atom n)
  | some (.string ..) => return .value (← strings n)
  | some (.name _) =>
    let e ← dottedExpr
    if ← takes "(" then
      let (items, _) ← separated (recordItem p) (sees ")")
      expect ")"
      let plain := items.takeWhile (·.1.isNone)
      let named := items.dropWhile (·.1.isNone)
      unless named.all (·.1.isSome) do failure
      return .record e (plain.map (·.2)) (named.filterMap (·.1)) (named.map (·.2))
    match e with
    | .name "_" => return .capture none none
    | .name id => return .capture none (some id)
    | e => return .value e
  | _ =>
    let e ← sum n
    unless isNumberPattern e do failure
    return .value e

def asPattern (n : Nested) (p : NestedPattern) : Parse Pattern := do
  let first ← closedPattern n p
  let rest ← many do
    if ← takes "|" then return some (← closedPattern n p)
    return none
  let pattern := if rest.isEmpty then first else .alternatives (first :: rest)
  if ← takesWord "as" then
    let name ← identifier
    if name = "_" then failure
    return .capture (some pattern) (some name)
  return pattern

def nestedPattern (n : Nested) : Nat → NestedPattern
  | 0 => ⟨failure⟩
  | depth + 1 => ⟨asPattern n (nestedPattern n depth)⟩

def casePattern (n : Nested) : Parse Pattern := do
  let p := nestedPattern n ((← get).length + 1)
  let first ← maybeStarPattern p
  if ← takes "," then
    let (rest, _) ← separated (maybeStarPattern p) (return (← sees ":") || (← seesWord "if"))
    return .sequence (first :: rest)
  match first with
  | .star _ => failure
  | first => return first

/-! ### Compound statements -/

structure NestedBlock where
  statements : Parse (List Stmt)

/-- The block after a colon: the rest of the line, or indented lines. -/
def suite (n : Nested) (b : NestedBlock) : Parse (List Stmt) := do
  expect ":"
  match ← peek? with
  | some .newline =>
    skip
    match ← peek? with
    | some .indent =>
      skip
      let body ← b.statements
      match ← peek? with
      | some .dedent => skip; return body
      | _ => failure
    | _ => failure
  | _ => simpleStatements n

def elseBlock (n : Nested) (b : NestedBlock) : Parse (List Stmt) := do
  if ← takesWord "else" then suite n b else return []

def branchRest (n : Nested) (b : NestedBlock) : Nat → Parse Stmt
  | 0 => failure
  | fuel + 1 => do
    let test ← namedExpression n
    let body ← suite n b
    if ← takesWord "elif" then return .branch test body [← branchRest n b fuel]
    return .branch test body (← elseBlock n b)

def loopStatement (n : Nested) (b : NestedBlock) : Parse Stmt := do
  let test ← namedExpression n
  let body ← suite n b
  return .loop test body (← elseBlock n b)

def forStatement (n : Nested) (b : NestedBlock) (async : Bool) : Parse Stmt := do
  let target ← targets n
  expectWord "in"
  let source ← starExpressions n
  let body ← suite n b
  return .iterate async target source body (← elseBlock n b)

def withItem (n : Nested) : Parse Stmt := do
  let context ← expression n
  if ← takesWord "as" then
    let e ← target n
    unless isTarget true e do failure
    return .scopedItem context (some e)
  return .scopedItem context none

def withStatement (n : Nested) (b : NestedBlock) (async : Bool) : Parse Stmt := do
  let bracketed : Parse (List Stmt) := do
    expect "("
    let (items, _) ← separated (withItem n) (sees ")")
    if items.isEmpty then failure
    expect ")"
    unless ← sees ":" do failure
    return items
  let bare : Parse (List Stmt) := do
    let (items, trailing) ← separated (withItem n) (pure false)
    if trailing then failure
    return items
  let items ← bracketed <|> bare
  return .scoped async items (← suite n b)

def handler (n : Nested) (b : NestedBlock) (starred : Bool) : Parse Stmt := do
  if ← sees ":" then
    if starred then failure
    return .handler none none (← suite n b)
  let type ← expression n
  let name ← asName
  return .handler (some type) name (← suite n b)

def tryStatement (n : Nested) (b : NestedBlock) : Parse Stmt := do
  let body ← suite n b
  let marks ← many do
    if ← takesWord "except" then
      let starred ← takes "*"
      return some (starred, ← handler n b starred)
    return none
  let starred := (marks.head?.map (·.1)).getD false
  unless marks.all (·.1 == starred) do failure
  let otherwise ← if marks.isEmpty then pure [] else elseBlock n b
  let final ← if ← takesWord "finally" then suite n b else pure []
  if marks.isEmpty && final.isEmpty then failure
  return .attempt starred body (marks.map (·.2)) otherwise final

def functionStatement (n : Nested) (b : NestedBlock) (async : Bool) (decorators : List Expr) : Parse Stmt := do
  expectWord "def"
  let name ← identifier
  expect "("
  let parameters ← params n true ")"
  expect ")"
  let returns ← if ← takes "->" then some <$> expression n else pure none
  return .function async name parameters returns decorators (← suite n b)

def classStatement (n : Nested) (b : NestedBlock) (decorators : List Expr) : Parse Stmt := do
  expectWord "class"
  let name ← identifier
  let (bases, named) ← if ← takes "(" then arguments n else pure ([], [])
  return .type name bases named decorators (← suite n b)

def decorated (n : Nested) (b : NestedBlock) : Parse Stmt := do
  let decorators ← many do
    if ← takes "@" then
      let e ← namedExpression n
      lineEnd
      return some e
    return none
  if ← seesWord "class" then classStatement n b decorators
  else functionStatement n b (← takesWord "async") decorators

def caseBlock (n : Nested) (b : NestedBlock) : Parse Stmt := do
  expectWord "case"
  let pattern ← casePattern n
  let guard ← if ← takesWord "if" then some <$> namedExpression n else pure none
  return .selectCase pattern guard (← suite n b)

def matchStatement (n : Nested) (b : NestedBlock) : Parse Stmt := do
  expectWord "match"
  let first ← starNamed n
  let subject ← if ← takes "," then
      let (rest, _) ← separated (starNamed n) (sees ":")
      pure (.tuple (first :: rest))
    else if isStarred first then failure
    else pure first
  expect ":"
  lineEnd
  match ← peek? with
  | some .indent => skip
  | _ => failure
  let cases ← many do
    if ← seesWord "case" then return some (← caseBlock n b)
    return none
  if cases.isEmpty then failure
  match ← peek? with
  | some .dedent => skip; return .select subject cases
  | _ => failure

def statement (n : Nested) (b : NestedBlock) : Parse (List Stmt) := do
  match ← get with
  | .word "if" :: rest => set rest; return [← branchRest n b (rest.length + 1)]
  | .word "while" :: rest => set rest; return [← loopStatement n b]
  | .word "for" :: rest => set rest; return [← forStatement n b false]
  | .word "with" :: rest => set rest; return [← withStatement n b false]
  | .word "try" :: rest => set rest; return [← tryStatement n b]
  | .word "def" :: _ => return [← functionStatement n b false []]
  | .word "class" :: _ => return [← classStatement n b []]
  | .op "@" :: _ => return [← decorated n b]
  | .word "async" :: .word "def" :: rest =>
    set (Token.word "def" :: rest)
    return [← functionStatement n b true []]
  | .word "async" :: .word "for" :: rest => set rest; return [← forStatement n b true]
  | .word "async" :: .word "with" :: rest => set rest; return [← withStatement n b true]
  | .name "match" :: _ => (return [← matchStatement n b]) <|> simpleStatements n
  | _ => simpleStatements n

def statements (n : Nested) (b : NestedBlock) : Parse (List Stmt) := do
  let groups ← many do
    match ← peek? with
    | none | some .dedent => return none
    | _ => return some (← statement n b)
  return groups.flatten

end Grammar

def Grammar.NestedBlock.ofDepth (n : Nested) : Nat → Grammar.NestedBlock
  | 0 => ⟨failure⟩
  | depth + 1 => ⟨Grammar.statements n (NestedBlock.ofDepth n depth)⟩

def statements? (tokens : List Token) (depth : Nat) : Option (List Stmt) := do
  let n := Nested.ofDepth depth
  let (found, rest) ← (Grammar.NestedBlock.ofDepth n (tokens.length + 1)).statements.run tokens
  if rest.isEmpty then some found else none

end Bladewright.Host
