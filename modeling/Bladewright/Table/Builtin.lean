import Bladewright.Tree.Basic

/-!
The built-in bindings. A primitive function performs one operation; a derived function calls other functions by name,
so that it follows when they are bound anew.
-/
namespace Bladewright.Builtin

/-- The function that performs an operation on its arguments. -/
def primitive (op : Op) : Callable :=
  ⟨op.arity, .operation op ((List.range op.arity).map fun (i : Nat) => .argument i)⟩

def a : Tree := .argument 0

def b : Tree := .argument 1

def unary (name : String) (body : Tree) : String × Callable := (name, ⟨1, body⟩)

def binary (name : String) (body : Tree) : String × Callable := (name, ⟨2, body⟩)

def call₁ (name : String) (x : Tree) : Tree := .call name [x]

def call₂ (name : String) (x y : Tree) : Tree := .call name [x, y]

def times (x y : Tree) : Tree := call₂ "geometric_product" x y

def part (x : Tree) (k : Int) : Tree := call₂ "grade" x (.literal (.ofInt k))

def half (x : Tree) : Tree := call₂ "scalar_division" x (.literal (.ofInt 2))

/-- The derived functions. The highest grade is reached without knowing the dimension, as the
complement of grade zero. -/
def derived : List (String × Callable) :=
  [binary "subtract" (call₂ "add" a (call₁ "negate" b)),
   binary "wedge" (call₂ "outer_product" a b),
   binary "dot" (call₂ "inner_product" a b),
   unary "conjugate" (call₁ "reverse" (call₁ "involute" a)),
   unary "antireverse" (call₁ "left_complement" (call₁ "reverse" (call₁ "right_complement" a))),
   binary "exterior_antiproduct" (call₁ "left_complement"
     (call₂ "outer_product" (call₁ "right_complement" a) (call₁ "right_complement" b))),
   binary "regressive_product" (call₂ "exterior_antiproduct" a b),
   binary "antiwedge" (call₂ "exterior_antiproduct" a b),
   binary "commutator_product" (half (call₂ "subtract" (times a b) (times b a))),
   binary "anticommutator_product" (half (call₂ "add" (times a b) (times b a))),
   unary "magnitude2" (call₂ "scalar_product" a (call₁ "reverse" a)),
   unary "inverse" (call₂ "scalar_division" (call₁ "reverse" a) (times a (call₁ "reverse" a))),
   binary "division" (times a (call₁ "inverse" b)),
   binary "sandwich_product" (times (times a b) (call₁ "reverse" a)),
   binary "versor_product" (times (times a b) (call₁ "inverse" a)),
   binary "project" (times (call₂ "inner_product" a b) (call₁ "inverse" b)),
   binary "reject" (times (call₂ "outer_product" a b) (call₁ "inverse" b)),
   unary "scalar" (part a 0),
   unary "vector" (part a 1),
   unary "bivector" (part a 2),
   unary "trivector" (part a 3),
   unary "antiscalar" (call₁ "left_complement" (part (call₁ "right_complement" a) 0))]

def functions : List (String × Callable) := Op.all.map (fun op => (op.name, primitive op)) ++ derived

def references : List (String × Tree) := [("I", .call "pseudoscalar" [])]

/-- Whether a name is built in. -/
def binds (name : String) : Bool :=
  (functions.lookup name).isSome || (references.lookup name).isSome

end Bladewright.Builtin
