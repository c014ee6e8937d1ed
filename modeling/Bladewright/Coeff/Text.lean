import Bladewright.Coeff.Order

/-!
The text of expressions: terms and factors in written order, negative powers below a fraction bar, and parentheses
where the reading needs them.
-/
namespace Bladewright.Coeff

/-- How tightly the text of an expression binds: sums, products, powers, applications, atoms. -/
abbrev Binding := Nat

structure Shown where
  text : String
  binding : Binding
  opposite : String
  oppositeBinding : Binding
  under : Option (String × Binding)
  parts : Option (Int × Nat)
deriving Inhabited

namespace Shown

/-- Parentheses around a part that binds no more tightly than its place. -/
def within (level : Binding) (text : String) (binding : Binding) : String :=
  if binding ≤ level then "(" ++ text ++ ")" else text

def plain (text : String) (binding : Binding) : Shown := ⟨text, binding, "-" ++ text, 40, none, none⟩

def numberBinding : Scalar → Binding
  | .exact q => if q < 0 then 40 else if q.den = 1 then 1000 else 50
  | .approx q => if q < 0 then 40 else 1000
  | .infinity true => 40
  | _ => 1000

def number (inside : Bool) (c : Scalar) : Shown :=
  { text := c.text inside
    binding := numberBinding c
    opposite := (-c).text true
    oppositeBinding := numberBinding (-c)
    under := none
    parts := c.toExact?.map fun q => (q.num, q.den) }

def product (c : Scalar) (factors : List Shown) : Shown :=
  let negative := c.isNegative
  let size := if negative then -c else c
  let all := if size.isOne then factors else number true size :: factors
  let level : Binding := if negative then 40 else 50
  let above := all.flatMap fun f => match f.under, f.parts with
    | some _, _ => []
    | none, some (p, _) => if p = 1 then [] else [toString p]
    | none, none => [within level f.text f.binding]
  let below := all.flatMap fun f => match f.under, f.parts with
    | some (text, binding), _ => [within level text binding]
    | none, some (_, q) => if q = 1 then [] else [toString q]
    | none, none => []
  let above := if above.isEmpty then ["1"] else above
  let body := "*".intercalate above ++ match below with
    | [] => ""
    | [d] => "/" ++ d
    | ds => "/(" ++ "*".intercalate ds ++ ")"
  let (opposite, oppositeBinding) := match negative && size.isOne, factors with
    | true, [f] => (f.text, f.binding)
    | _, _ => ((if negative then "" else "-") ++ body, if negative then 50 else 40)
  { text := (if negative then "-" else "") ++ body
    binding := level
    opposite, oppositeBinding
    under := none
    parts := none }

def powerText (b : Shown) (root : Bool) (exponent : String) (binding : Binding) : String :=
  if root then "sqrt(" ++ b.text ++ ")"
  else within 60 b.text b.binding ++ "**" ++ within 60 exponent binding

def joinTerms (terms : List (String × Binding)) : String :=
  let pieces := terms.map fun (text, binding) =>
    let negative := text.startsWith "-"
    let body := if negative then String.ofList (text.toList.drop 1) else text
    (negative, if binding < 40 then "(" ++ body ++ ")" else body)
  match pieces with
  | [] => "0"
  | (negative, body) :: rest =>
    (if negative then "-" else "") ++ body
      ++ String.join (rest.map fun (negative, body) => (if negative then " - " else " + ") ++ body)

end Shown

def hasNegativeNumber : Coeff → Bool
  | num c => c.isNegative
  | prod c _ => c.isNegative
  | _ => false

def isCompoundBase (b : Coeff) : Bool := b.isProd || b.isPow

mutual

def shown : Coeff → Shown
  | num c => .number true c
  | sym s => .plain s 1000
  | const .pi => .plain "pi" 1000
  | const .euler => .plain "E" 1000
  | const .imaginary => .plain "I" 1000
  | app f args => .plain (f ++ "(" ++ ", ".intercalate ((shownList args).map (·.text)) ++ ")") 70
  | pow (const .euler) e => .plain ("exp(" ++ (shown e).text ++ ")") 70
  | pow b e =>
    let sb := shown b
    let se := shown e
    let half := match e with
      | num (.exact q) => q == 1 / 2
      | _ => false
    let minusHalf := match e with
      | num (.exact q) => q == -1 / 2
      | _ => false
    let minusOne := match e with
      | num (.exact q) => q == -1
      | _ => false
    let text :=
      if minusHalf then "1/sqrt(" ++ sb.text ++ ")"
      else if minusOne then "1/" ++ Shown.within 60 sb.text sb.binding
      else Shown.powerText sb half se.text se.binding
    let under :=
      if minusOne then
        some (if isCompoundBase b then ("(" ++ sb.text ++ ")", 1000) else (sb.text, sb.binding))
      else if hasNegativeNumber e then
        some (Shown.powerText sb minusHalf se.opposite se.oppositeBinding, 60)
      else none
    { Shown.plain text 60 with under }
  | prod c fs =>
    let placed := (placeList fs).zip (shownList fs)
    let sorted := placed.mergeSort fun a b => a.1.key.cmp b.1.key != .gt
    .product c (sorted.map (·.2))
  | sum c ts =>
    let terms := (placeList ts).zip (shownList ts)
    let all := if c == 0 then terms else (placeNumber c, Shown.number true c) :: terms
    .plain (Shown.joinTerms ((sortPlaced all).map fun (_, s) => (s.text, s.binding))) 40

def shownList : List Coeff → List Shown
  | [] => []
  | e :: es => shown e :: shownList es

end

def text : Coeff → String
  | num c => c.text false
  | e => (shown e).text

def isWritable : Coeff → Bool
  | num c => c.isWritable
  | sym _ | const _ => true
  | app _ args => args.attach.all fun ⟨a, _⟩ => a.isWritable
  | pow b e => b.isWritable && e.isWritable
  | prod c fs => c.isWritable && fs.attach.all fun ⟨f, _⟩ => f.isWritable
  | sum c ts => c.isWritable && ts.attach.all fun ⟨t, _⟩ => t.isWritable

def listedText : Coeff → String
  | num (.approx q) => Scalar.listedApprox q
  | e => e.text

end Bladewright.Coeff
