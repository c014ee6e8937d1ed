import Bladewright.Host.Printer

/-!
Source text of statements: one line per simple statement, and blocks set in by four blanks.
-/
namespace Bladewright.Host

def indented (depth : Nat) (text : String) : String := String.join (List.replicate depth "    ") ++ text

def afterMark (mark : String) : Option Expr → String
  | some e => mark ++ e.source
  | none => ""

def Alias.text (a : Alias) : String :=
  a.name ++ match a.asName with
    | some name => " as " ++ name
    | none => ""

mutual

def Pattern.text (level : Level) : Pattern → String
  | .value e => e.source
  | .sequence patterns => "[" ++ commas (patternTexts .test patterns) ++ "]"
  | .star name => "*" ++ name.getD "_"
  | .mapping keys patterns rest =>
    let entries := (keys.zip (patternTexts .test patterns)).map fun (key, p) => key.source ++ ": " ++ p
    let rest := match rest with
      | some name => ["**" ++ name]
      | none => []
    "\x7b" ++ commas (entries ++ rest) ++ "\x7d"
  | .record type patterns fields fieldPatterns =>
    let named := (fields.zip (patternTexts .test fieldPatterns)).map fun (field, p) => field ++ "=" ++ p
    type.text false .atom ++ "(" ++ commas (patternTexts .test patterns ++ named) ++ ")"
  | .capture none none => "_"
  | .capture none (some name) => name
  | .capture (some _) none => "_"
  | .capture (some pattern) (some name) =>
    parenthesized level .test (pattern.text .bitOr ++ " as " ++ name)
  | .alternatives patterns =>
    parenthesized level .bitOr (" | ".intercalate (patternTexts Level.bitOr.tighter patterns))

def patternTexts (level : Level) : List Pattern → List String
  | [] => []
  | p :: ps => p.text level :: patternTexts level ps

end

def Stmt.itemText : Stmt → String
  | .scopedItem context target => context.source ++ afterMark " as " target
  | _ => ""

mutual

/-- The lines of a statement at the given depth. A definition is set off by an empty line unless it
comes `first`; `group` marks the handlers of a statement that handles groups of exceptions. -/
def Stmt.lines (depth : Nat) (first group : Bool) : Stmt → List String
  | .expression value => [indented depth (value.text false .yield)]
  | .assign targets value =>
    [indented depth (String.join (targets.map fun t => t.text false .tuple ++ " = ") ++ value.source)]
  | .augmented target op value =>
    [indented depth (target.source ++ " " ++ op.spelling ++ "= " ++ value.source)]
  | .annotated target hint value simple =>
    let shown := match target, simple with
      | .name id, false => "(" ++ id ++ ")"
      | target, _ => target.source
    [indented depth (shown ++ ": " ++ hint.source ++ afterMark " = " value)]
  | .ret value => [indented depth ("return" ++ afterMark " " value)]
  | .delete targets => [indented depth ("del " ++ commas (targets.map Expr.source))]
  | .pass => [indented depth "pass"]
  | .leave => [indented depth "break"]
  | .next => [indented depth "continue"]
  | .assert test message => [indented depth ("assert " ++ test.source ++ afterMark ", " message)]
  | .raise exception cause =>
    [indented depth ("raise" ++ afterMark " " exception ++ afterMark " from " cause)]
  | .global names => [indented depth ("global " ++ commas names)]
  | .nonlocal names => [indented depth ("nonlocal " ++ commas names)]
  | .importNames names => [indented depth ("import " ++ commas (names.map Alias.text))]
  | .importFrom level module names =>
    [indented depth ("from " ++ String.join (List.replicate level ".") ++ module.getD ""
      ++ " import " ++ commas (names.map Alias.text))]
  | .function async name parameters returns decorators body =>
    (if first then [] else [""]) ++ decorators.map (fun d => indented depth ("@" ++ d.source))
      ++ [indented depth ((if async then "async def " else "def ") ++ name ++ "(" ++ parameters.source
        ++ ")" ++ afterMark " -> " returns ++ ":")]
      ++ documented (depth + 1) body
  | .type name bases keywords decorators body =>
    let parents := bases.map Expr.source ++ keywords.map Expr.source
    (if first then [] else [""]) ++ decorators.map (fun d => indented depth ("@" ++ d.source))
      ++ [indented depth ("class " ++ name
        ++ (if parents.isEmpty then "" else "(" ++ commas parents ++ ")") ++ ":")]
      ++ documented (depth + 1) body
  | .branch test body otherwise =>
    indented depth ("if " ++ test.source ++ ":") :: block (depth + 1) body ++ alternative depth otherwise
  | .loop test body otherwise =>
    indented depth ("while " ++ test.source ++ ":") :: block (depth + 1) body
      ++ (if otherwise.isEmpty then [] else indented depth "else:" :: block (depth + 1) otherwise)
  | .iterate async target source body otherwise =>
    indented depth ((if async then "async for " else "for ") ++ target.text false .tuple ++ " in "
        ++ source.source ++ ":") :: block (depth + 1) body
      ++ (if otherwise.isEmpty then [] else indented depth "else:" :: block (depth + 1) otherwise)
  | .scoped async items body =>
    indented depth ((if async then "async with " else "with ") ++ commas (items.map Stmt.itemText)
      ++ ":") :: block (depth + 1) body
  | .scopedItem context target => [indented depth (context.source ++ afterMark " as " target)]
  | .attempt starred body handlers otherwise final =>
    indented depth "try:" :: block (depth + 1) body ++ handlerLines depth starred handlers
      ++ (if otherwise.isEmpty then [] else indented depth "else:" :: block (depth + 1) otherwise)
      ++ (if final.isEmpty then [] else indented depth "finally:" :: block (depth + 1) final)
  | .handler type name body =>
    let as := match name with
      | some name => " as " ++ name
      | none => ""
    indented depth ((if group then "except*" else "except") ++ afterMark " " type ++ as ++ ":")
      :: block (depth + 1) body
  | .select subject cases =>
    indented depth ("match " ++ subject.source ++ ":") :: block (depth + 1) cases
  | .selectCase pattern guard body =>
    indented depth ("case " ++ pattern.text .test ++ afterMark " if " guard ++ ":")
      :: block (depth + 1) body

def block (depth : Nat) : List Stmt → List String
  | [] => []
  | s :: rest => s.lines depth false false ++ block depth rest

def handlerLines (depth : Nat) (group : Bool) : List Stmt → List String
  | [] => []
  | s :: rest => s.lines depth false group ++ handlerLines depth group rest

def documented (depth : Nat) : List Stmt → List String
  | .expression (.literal (.str value marked)) :: rest =>
    indented depth ((if marked then "u" else "") ++ plainString value longQuotes) :: block depth rest
  | [] => []
  | s :: rest => s.lines depth false false ++ block depth rest

def alternative (depth : Nat) : List Stmt → List String
  | [] => []
  | s :: rest =>
    match s, rest with
    | .branch test body otherwise, [] =>
      indented depth ("elif " ++ test.source ++ ":") :: block (depth + 1) body ++ alternative depth otherwise
    | s, rest => indented depth "else:" :: (s.lines (depth + 1) false false ++ block (depth + 1) rest)

end

def Stmt.source (s : Stmt) : String := "\n".intercalate (s.lines 0 true false)

def listing : List Stmt → String
  | [] => ""
  | .expression (.literal (.str value marked)) :: rest =>
    "\n".intercalate (((if marked then "u" else "") ++ plainString value longQuotes) :: block 0 rest)
  | s :: rest => "\n".intercalate (s.lines 0 true false ++ block 0 rest)

end Bladewright.Host
