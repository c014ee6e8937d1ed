import Bladewright.Coeff.Basic

/-!
Roots of integers: the largest part that comes out of the root, and what stays under it.
-/
namespace Bladewright.Coeff

def multiplicity (p : Nat) : Nat → Nat → Nat × Nat
  | 0, n => (0, n)
  | fuel + 1, n =>
    if 1 < p ∧ n ≠ 0 ∧ n % p = 0 then
      let (k, m) := multiplicity p fuel (n / p)
      (k + 1, m)
    else (0, n)

def trialFactors : Nat → Nat → Nat → List (Nat × Nat)
  | 0, _, n => if n = 1 then [] else [(n, 1)]
  | fuel + 1, p, n =>
    if n = 1 then []
    else if n < p * p then [(n, 1)]
    else
      let (k, m) := multiplicity p (n.log2 + 1) n
      if k = 0 then trialFactors fuel (p + 1) n else (p, k) :: trialFactors fuel (p + 1) m

/-- The base and the exponent, the greatest of at least two, that a number is a whole power with. -/
def perfectPower? (n : Nat) : Option (Nat × Nat) :=
  if n < 4 then none
  else (List.range (n.log2 - 1)).findSome? fun i =>
    let k := n.log2 - i
    (Numeral.exactRoot? k n).map fun root => (root, k)

def splitRest : Nat × Nat → Nat × Nat
  | (n, k) => match if n < Nat.pow 2 30 then none else perfectPower? n with
    | some (b, j) => (b, j * k)
    | none => (n, k)

/-- Factors with their multiplicities: the primes below the bound of trial division, and the rest as one
factor. A number that is a whole power is not divided further. -/
def factors (n : Nat) : List (Nat × Nat) :=
  match perfectPower? n with
  | some power => [power]
  | none => if n = 0 then [] else (trialFactors 32768 2 n).map splitRest

/-- A root `n ^ (p / q)` with a whole part in front, radicals `(base, numerator, degree)` of lower degree,
and what is left under the root of this degree. -/
structure Radical where
  whole : Nat
  radicals : List (Nat × Nat × Nat)
  rest : Nat
  restPower : Nat

/-- The root `n ^ (p / q)` of an integer above one, for positive `p` and `q` above one. There is none if
nothing comes out of it. -/
def radical? (n p q : Nat) : Option Radical :=
  match Numeral.exactRoot? q n with
  | some root => some ⟨Nat.pow root p, [], 1, 1⟩
  | none =>
    let split := (factors n).map fun (prime, k) => (prime, k * p / q, k * p % q)
    let whole : Nat := split.foldl (fun w (prime, k, _) => w * Nat.pow prime k) 1
    let radicals := split.filterMap fun (prime, _, m) =>
      let g := Nat.gcd m q
      if m = 0 || g = 1 then none else some (prime, m / g, q / g)
    let plain := split.filterMap fun (prime, _, m) =>
      if m = 0 || Nat.gcd m q ≠ 1 then none else some (prime, m)
    let g : Nat := plain.foldl (fun g (_, m) => Nat.gcd g m) 0
    let rest : Nat := plain.foldl (fun b (prime, m) => b * Nat.pow prime (m / (max g 1))) 1
    if rest = n && whole = 1 && radicals.isEmpty then none else some ⟨whole, radicals, rest, g⟩

end Bladewright.Coeff
