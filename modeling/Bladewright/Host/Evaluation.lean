import Bladewright.Host.Routine

/-!
The meaning of code.
-/
namespace Bladewright.Host

open Bladewright.Numeral
open Bladewright.Host.Value (truth items operate operateUnary compareWith)

/-- The names of a function while it runs; a name without a value is yet to be assigned. -/
abbrev Scope := List (String × Option Value)

namespace Environment

/-- The value of a name: local, then global, then one that every program has. -/
def lookup (env : Environment) (scope : Scope) (name : String) : Except Fault Value :=
  match scope.lookup name with
  | some (some v) => return v
  | some none => throw .unboundLocal
  | none => match env.globals.lookup name with
    | some v => return v
    | none => match Value.builtin? name with
      | some v => return v
      | none => throw .nameError

end Environment

def Literal.value : Literal → Except Fault Value
  | .none => return .none
  | .true => return .bool Bool.true
  | .false => return .bool Bool.false
  | .ellipsis => return .ellipsis
  | .int n => return .int n
  | .float x => return .float x
  | .imaginary x => return .complex (.finite 0) x
  | .str s _ => return .str s
  | .bytes b => return .bytes b
  | .foreign _ => throw .invalidCode

mutual

def assignTo (scope : Scope) (v : Value) : Expr → Except Fault Scope
  | .name id => return (id, some v) :: scope
  | .tuple es | .list es => do assignAll scope (← v.items) es
  | _ => throw .invalidCode

def assignAll (scope : Scope) : List Value → List Expr → Except Fault Scope
  | [], [] => return scope
  | v :: vs, e :: es => do assignAll (← assignTo scope v e) vs es
  | _, _ => throw (.valueError none)

end

mutual

def evaluate (env : Environment) (call : Caller) (scope : Scope) : Expr → Except Fault Value
  | .literal l => l.value
  | .name id => env.lookup scope id
  | .attribute value field => do (← evaluate env call scope value).attributeOf field
  | .subscript value index => do
    let v ← evaluate env call scope value
    v.item (← evaluate env call scope index)
  | .slice lower upper step =>
    return .slice (← evaluateOption env call scope lower) (← evaluateOption env call scope upper)
      (← evaluateOption env call scope step)
  | .call function args keywords => do
    let f ← evaluate env call scope function
    let args ← evaluateAll env call scope args
    let named ← evaluateKeywords env call scope keywords
    call f args named
  | .unary op operand => do operateUnary op (← evaluate env call scope operand)
  | .binary op left right => do
    let a ← evaluate env call scope left
    operate op a (← evaluate env call scope right)
  | .conjunction values => evaluateUntil env call scope false (.bool true) values
  | .disjunction values => evaluateUntil env call scope true (.bool false) values
  | .comparison first ops rest => do
    evaluateChain env call scope (.bool true) (← evaluate env call scope first) ops rest
  | .conditional test body otherwise => do
    if ← (← evaluate env call scope test).truth then evaluate env call scope body
    else evaluate env call scope otherwise
  | .lambda parameters body => do
    let (names, values) ← evaluateDefaults env call scope parameters
    let taken := scope.filterMap fun (name, v) => v.map fun v => (name, v)
    return .function "<lambda>" parameters names values [.ret (some body)] (taken.map (·.1)) (taken.map (·.2))
  | .tuple es => return .tuple (← evaluateAll env call scope es)
  | .list es => return .list (← evaluateAll env call scope es)
  | .set es => do setOf (← evaluateAll env call scope es) (2 < es.length && es.all Expr.isConstant)
  | .mapping entries => do mappingOf (← evaluateEntries env call scope entries)
  | .comprehension brackets element value clauses => do
    let pairs ← evaluateClauses env call clauses scope fun scope => do
      let e ← evaluate env call scope element
      return [(e, ← evaluateOption env call scope value)]
    match brackets, value with
    | .braces, some _ => mappingOf pairs
    | .braces, none => setOf (pairs.map (·.1)) false
    | .square, _ => return .list (pairs.map (·.1))
    | .round, _ => return .iterator .generator (pairs.map (·.1))
  | .joined parts => return .str (String.join (← evaluateParts env call scope parts))
  | _ => throw .invalidCode

def evaluateOption (env : Environment) (call : Caller) (scope : Scope) : Option Expr → Except Fault Value
  | none => return .none
  | some e => evaluate env call scope e

def evaluateAll (env : Environment) (call : Caller) (scope : Scope) : List Expr → Except Fault (List Value)
  | [] => return []
  | .starred e :: es => do
    let vs ← (← evaluate env call scope e).items
    return vs ++ (← evaluateAll env call scope es)
  | e :: es => do
    let v ← evaluate env call scope e
    return v :: (← evaluateAll env call scope es)

def evaluateKeywords (env : Environment) (call : Caller) (scope : Scope) :
    List Expr → Except Fault (List (String × Value))
  | [] => return []
  | .keyword (some name) e :: es => do
    let v ← evaluate env call scope e
    return (name, v) :: (← evaluateKeywords env call scope es)
  | .keyword none e :: es => do
    match ← evaluate env call scope e with
    | .dict keys values =>
      let named ← (keys.zip values).mapM fun entry => match entry with
        | (.str name, v) => return (name, v)
        | _ => throw .typeError
      return named ++ (← evaluateKeywords env call scope es)
    | _ => throw .typeError
  | _ :: _ => throw .invalidCode

def evaluateUntil (env : Environment) (call : Caller) (scope : Scope) (stop : Bool) (last : Value) :
    List Expr → Except Fault Value
  | [] => return last
  | e :: es => do
    let v ← evaluate env call scope e
    match es with
    | [] => return v
    | _ => if (← v.truth) == stop then return v else evaluateUntil env call scope stop v es

def evaluateChain (env : Environment) (call : Caller) (scope : Scope) (last left : Value) :
    List CompareOp → List Expr → Except Fault Value
  | op :: ops, e :: es => do
    let right ← evaluate env call scope e
    let holds ← compareWith left right op
    match ops with
    | [] => return holds
    | _ => if ← holds.truth then evaluateChain env call scope holds right ops es else return holds
  | _, _ => return last

def evaluateEntries (env : Environment) (call : Caller) (scope : Scope) :
    List Expr → Except Fault (List (Value × Value))
  | [] => return []
  | .entry (some key) value :: es => do
    let k ← evaluate env call scope key
    let v ← evaluate env call scope value
    return (k, v) :: (← evaluateEntries env call scope es)
  | .entry none value :: es => do
    match ← evaluate env call scope value with
    | .dict keys values => return keys.zip values ++ (← evaluateEntries env call scope es)
    | _ => throw .typeError
  | _ :: _ => throw .invalidCode

def evaluateClauses (env : Environment) (call : Caller) :
    List Expr → Scope → (Scope → Except Fault (List (Value × Value))) → Except Fault (List (Value × Value))
  | [], scope, body => body scope
  | .clause _ target source conditions :: clauses, scope, body => do
    let vs ← (← evaluate env call scope source).items
    let results ← vs.mapM fun v => do
      let scope ← assignTo scope v target
      if ← evaluateConditions env call scope conditions then evaluateClauses env call clauses scope body
      else return []
    return results.flatten
  | _ :: _, _, _ => throw .invalidCode

def evaluateConditions (env : Environment) (call : Caller) (scope : Scope) : List Expr → Except Fault Bool
  | [] => return true
  | e :: es => do
    if ← (← evaluate env call scope e).truth then evaluateConditions env call scope es else return false

def evaluateParts (env : Environment) (call : Caller) (scope : Scope) : List Expr → Except Fault (List String)
  | [] => return []
  | .literal (.str s _) :: es => return s :: (← evaluateParts env call scope es)
  | .formatted value conversion none :: es => do
    let v ← evaluate env call scope value
    let piece := match conversion with
      | some 'r' | some 'a' => v.text
      | _ => v.plainText
    return piece :: (← evaluateParts env call scope es)
  | _ :: _ => throw (.valueError none)

def evaluateDefaults (env : Environment) (call : Caller) (scope : Scope) :
    Expr → Except Fault (List String × List Value)
  | .params positional regular _ keywords _ => do
    let a ← evaluateParams env call scope positional
    let b ← evaluateParams env call scope regular
    let c ← evaluateParams env call scope keywords
    let all := a ++ b ++ c
    return (all.map (·.1), all.map (·.2))
  | _ => throw .invalidCode

def evaluateParams (env : Environment) (call : Caller) (scope : Scope) :
    List Expr → Except Fault (List (String × Value))
  | [] => return []
  | .param name _ (some e) :: es => do
    let v ← evaluate env call scope e
    return (name, v) :: (← evaluateParams env call scope es)
  | _ :: es => evaluateParams env call scope es

end

def parameterNames (parameters : List Expr) : List String :=
  parameters.filterMap fun
    | .param name _ _ => some name
    | _ => none

def remaining (defaults named : List (String × Value)) (name : String) : Except Fault (String × Value) :=
  match named.lookup name, defaults.lookup name with
  | some v, _ => return (name, v)
  | none, some v => return (name, v)
  | none, none => throw .typeError

def bindArguments (parameters : Expr) (defaults : List (String × Value)) (args : List Value)
    (named : List (String × Value)) : Except Fault (List (String × Value)) :=
  match parameters with
  | .params positional regular rest keywords keywordRest => do
    let places := parameterNames (positional ++ regular)
    let bound := places.zip args
    let byName := parameterNames regular ++ parameterNames keywords
    if named.any fun (name, _) => bound.any (·.1 == name) && byName.contains name then throw .typeError
    let extra := named.filter fun (name, _) => !byName.contains name
    let later ← (places.drop args.length).mapM (remaining defaults (named.filter fun (name, _) => byName.contains name))
    let only ← (parameterNames keywords).mapM (remaining defaults named)
    let gathered ← match rest with
      | some (.param name _ _) => pure [(name, Value.tuple (args.drop places.length))]
      | _ => if places.length < args.length then throw .typeError else pure []
    let others ← match keywordRest with
      | some (.param name _ _) =>
        pure [(name, Value.dict (extra.map fun (k, _) => .str k) (extra.map (·.2)))]
      | _ => if extra.isEmpty then pure [] else throw .typeError
    return bound ++ later ++ gathered ++ only ++ others
  | _ => throw .invalidCode

def assignedNames (body : List Stmt) : List String :=
  body.flatMap fun
    | .assign targets _ => targets.filterMap fun
      | .name id => some id
      | _ => none
    | _ => []

def run (env : Environment) (call : Caller) : Scope → List Stmt → Except Fault Value
  | _, [] => return .none
  | scope, .assign [target] e :: rest => do
    let v ← evaluate env call scope e
    run env call (← assignTo scope v target) rest
  | scope, .expression e :: rest => do
    let _ ← evaluate env call scope e
    run env call scope rest
  | scope, .ret (some e) :: _ => evaluate env call scope e
  | _, .ret none :: _ => return .none
  | _, _ :: _ => throw .invalidCode

def apply (env : Environment) (call : Caller) (f : Value) (args : List Value) (named : List (String × Value)) :
    Except Fault Value :=
  match f with
  | .routine r => r.call env call args named
  | .type k => k.call call args named
  | .kvectorType grade dimension => match args, named with
    | [components], [] | [], [("components", components)] => Value.buildKVector grade dimension components
    | _, _ => throw .typeError
  | .method receiver name => if named.isEmpty then receiver.callMethod name args else throw .typeError
  | .function _ parameters defaultNames defaultValues body takenNames takenValues => do
    let bound ← bindArguments parameters (defaultNames.zip defaultValues) args named
    let locals := (bound ++ takenNames.zip takenValues).map fun (name, v) => (name, some v)
    let unassigned := (assignedNames body).filter fun name => !bound.any (·.1 == name)
    run env call (locals ++ unassigned.map fun name => (name, none)) body
  | _ => throw .typeError

def callWithin (env : Environment) : Nat → Caller
  | 0, _, _, _ => throw .recursion
  | depth + 1, f, args, named => apply env (callWithin env depth) f args named

def callDepth : Nat := 1000

def Environment.call (env : Environment) (f : Value) (args : List Value) : Except Fault Value :=
  callWithin env callDepth f args []

def Environment.evaluate (env : Environment) (e : Expr) : Except Fault Value :=
  Host.evaluate env (callWithin env callDepth) [] e

def Stmt.toFunction? : Stmt → Option Value
  | .function _ name params _ _ body => some (.function name params [] [] body [] [])
  | _ => none

end Bladewright.Host
