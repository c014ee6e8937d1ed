import Bladewright.Proofs.Coeff.Sum

/-!
Powers of one base gathered: exponents of the same base are added up, and the product of the powers stays what it was,
also where the base vanishes, since then no exponent is negative.
-/
namespace Bladewright.Coeff

open List Scalar

variable {r : Reading}

def product (r : Reading) (es : List Coeff) : ℚ := (es.map (value r)).prod

@[simp] theorem product_nil : product r [] = 1 := rfl

@[simp] theorem product_cons (e : Coeff) (es : List Coeff) : product r (e :: es) = value r e * product r es := by
  simp [product]

@[simp] theorem product_append (es fs : List Coeff) : product r (es ++ fs) = product r es * product r fs := by
  simp [product]

theorem product_perm {es fs : List Coeff} (perm : es.Perm fs) : product r es = product r fs :=
  (perm.map _).prod_eq

theorem product_filter (p : Coeff → Bool) (es : List Coeff) :
    product r (es.filter p) * product r (es.filter (!p ·)) = product r es := by
  rw [← product_append]
  exact product_perm (filter_append_perm p es)

theorem product_map {ι : Type} {f : ι → Coeff} {g : ι → ℚ} {is : List ι}
    (means : ∀ i ∈ is, Means r (f i) (g i)) : product r (is.map f) = (is.map g).prod := by
  rw [product, map_map]
  exact congrArg List.prod (map_congr_left fun i inside => (means i inside).value_eq)

theorem prod_map_zpow (es : List Coeff) (n : ℤ) : (es.map fun e => value r e ^ n).prod = product r es ^ n := by
  induction es with
  | nil => simp
  | cons e es ih => rw [map_cons, prod_cons, ih, product_cons, mul_zpow]

/-- What is asked of products and powers: they keep the value, of a power with any whole exponent that does
not divide by zero. -/
structure Operations.Sound (r : Reading) (ops : Operations) : Prop where
  mul {es : List Coeff} : AllDefined r es → Means r (ops.mul es) (product r es)
  pow {b : Coeff} {n : ℤ} : Defined r b → (n < 0 → value r b ≠ 0) →
    Means r (ops.pow b (ofInt n)) (value r b ^ n)

namespace Operations.Sound

variable {ops : Operations} (sound : ops.Sound r)
include sound

variable {a : Coeff} {x : ℚ}

theorem times {b : Coeff} {y : ℚ} (left : Means r a x) (right : Means r b y) : Means r (ops.times a b) (x * y) := by
  unfold Operations.times
  split
  · obtain ⟨p, rfl⟩ := left.defined.of_num
    obtain ⟨q, rfl⟩ := right.defined.of_num
    rw [← left.value_eq, ← right.value_eq]
    exact means_num (p * q)
  · have both : AllDefined r [a, b] := by simpa using ⟨left.defined, right.defined⟩
    simpa [left.value_eq, right.value_eq] using sound.mul both

theorem opposite (means : Means r a x) : Means r (ops.opposite a) (-x) := by
  unfold Operations.opposite
  split
  · obtain ⟨q, rfl⟩ := means.defined.of_num
    rw [← means.value_eq]
    exact means_num (-q)
  · have both : AllDefined r [ofInt (-1), a] := by simpa using ⟨(means_ofInt (-1)).defined, means.defined⟩
    simpa [means.value_eq] using sound.mul both

end Operations.Sound

theorem zpow_add_of_nonneg {x : ℚ} {m n : ℤ} (left : m < 0 → x ≠ 0) (right : n < 0 → x ≠ 0) :
    x ^ (m + n) = x ^ m * x ^ n := by
  by_cases zero : x = 0
  · have : 0 ≤ m := not_lt.mp fun negative => left negative zero
    have : 0 ≤ n := not_lt.mp fun negative => right negative zero
    apply zpow_add'
    omega
  · exact zpow_add₀ zero m n

/-! ### Powers as bases and exponents -/

variable {b e : Coeff} {powers : List (Coeff × Coeff)} {es : List (Coeff × Scalar)} {c : Scalar}
  {groups : List (Coeff × List (Coeff × Scalar))}

theorem Defined.of_pow (defined : Defined r (Coeff.pow b e)) :
    ∃ n : ℤ, e = ofInt n ∧ Defined r b ∧ (n < 0 → value r b ≠ 0) := by
  cases defined with
  | @pow _ n base nonzero => exact ⟨n, rfl, base, nonzero⟩

/-- All powers, given as bases and exponents, have values. -/
def PowersDefined (r : Reading) (powers : List (Coeff × Coeff)) : Prop := ∀ p ∈ powers, Defined r (pow p.1 p.2)

def powerProduct (r : Reading) (powers : List (Coeff × Coeff)) : ℚ :=
  (powers.map fun p => value r (pow p.1 p.2)).prod

@[simp] theorem powersDefined_nil : PowersDefined r [] := by simp [PowersDefined]

@[simp] theorem powersDefined_cons {p : Coeff × Coeff} :
    PowersDefined r (p :: powers) ↔ Defined r (pow p.1 p.2) ∧ PowersDefined r powers := by
  simp [PowersDefined]

@[simp] theorem powerProduct_nil : powerProduct r [] = 1 := rfl

@[simp] theorem powerProduct_cons (p : Coeff × Coeff) (powers : List (Coeff × Coeff)) :
    powerProduct r (p :: powers) = value r (pow p.1 p.2) * powerProduct r powers := by
  simp [powerProduct]

@[simp] theorem powerProduct_append (ps qs : List (Coeff × Coeff)) :
    powerProduct r (ps ++ qs) = powerProduct r ps * powerProduct r qs := by
  simp [powerProduct]

def powersOf (b : Coeff) (es : List (Coeff × Scalar)) : List (Coeff × Coeff) := es.map fun x => (b, num x.2)

def flatten (groups : List (Coeff × List (Coeff × Scalar))) : List (Coeff × Coeff) :=
  groups.flatMap fun g => powersOf g.1 g.2

theorem flatten_cons (g : Coeff × List (Coeff × Scalar)) (groups : List (Coeff × List (Coeff × Scalar))) :
    flatten (g :: groups) = powersOf g.1 g.2 ++ flatten groups := by
  simp [flatten]

def Plain (es : List (Coeff × Scalar)) : Prop := ∀ x ∈ es, x.1 = 1

@[simp] theorem plain_cons {x : Coeff × Scalar} : Plain (x :: es) ↔ x.1 = 1 ∧ Plain es := by
  simp [Plain]

@[simp] theorem powersOf_cons (b : Coeff) (x : Coeff × Scalar) (es : List (Coeff × Scalar)) :
    powersOf b (x :: es) = (b, num x.2) :: powersOf b es := rfl

theorem means_joined {d : Scalar} (left : Defined r (pow b (num c))) (right : Defined r (pow b (num d))) :
    Means r (pow b (num (c + d))) (value r (pow b (num c)) * value r (pow b (num d))) := by
  obtain ⟨m, same, base, nonzero⟩ := left.of_pow
  obtain ⟨n, same', -, nonzero'⟩ := right.of_pow
  cases same
  cases same'
  have joined : num (Scalar.ofInt m + Scalar.ofInt n) = ofInt (m + n) := by
    show num (.exact (m + n : ℚ)) = num (.exact ((m + n : ℤ) : ℚ))
    push_cast
    rfl
  show Means r (pow b (num (Scalar.ofInt m + Scalar.ofInt n)))
    (value r (pow b (ofInt m)) * value r (pow b (ofInt n)))
  rw [joined, value_pow, value_pow, ← zpow_add_of_nonneg nonzero nonzero']
  refine means_pow base.means fun negative => ?_
  rcases (show m < 0 ∨ n < 0 by omega) with first | second
  · exact nonzero first
  · exact nonzero' second

theorem gatherExponent_powers (plain : Plain es)
    (defined : PowersDefined r (powersOf b es)) (added : Defined r (pow b (num c))) :
    Plain (gatherPower.gatherExponent es 1 c) ∧ PowersDefined r (powersOf b (gatherPower.gatherExponent es 1 c)) ∧
      powerProduct r (powersOf b (gatherPower.gatherExponent es 1 c)) =
        powerProduct r (powersOf b es) * value r (pow b (num c)) := by
  induction es with
  | nil => exact ⟨by simp [gatherPower.gatherExponent, Plain], by simpa [gatherPower.gatherExponent, powersOf],
      by simp [gatherPower.gatherExponent, powersOf]⟩
  | cons x es ih =>
    obtain ⟨t, d⟩ := x
    rw [plain_cons] at plain
    obtain ⟨rfl, plain⟩ := plain
    rw [powersOf_cons, powersDefined_cons] at defined
    obtain ⟨first, rest⟩ := defined
    rw [gatherPower.gatherExponent]
    split
    · have means := means_joined first added
      refine ⟨plain_cons.mpr ⟨rfl, plain⟩, by simpa using ⟨means.defined, rest⟩, ?_⟩
      simp only [powersOf_cons, powerProduct_cons, means.value_eq]
      ring
    · obtain ⟨plain', defined', product⟩ := ih plain rest
      refine ⟨plain_cons.mpr ⟨rfl, plain'⟩, by simpa using ⟨first, defined'⟩, ?_⟩
      simp only [powersOf_cons, powerProduct_cons, product]
      ring

/-- Exponents gathered for a base: numbers alone, with powers that have values. -/
structure GroupDefined (r : Reading) (g : Coeff × List (Coeff × Scalar)) : Prop where
  base : Defined r g.1
  plain : Plain g.2
  powers : PowersDefined r (powersOf g.1 g.2)

theorem gatherPower_powers (gathered : ∀ g ∈ groups, GroupDefined r g) (added : Defined r (pow b e)) :
    (∀ g ∈ gatherPower groups b e, GroupDefined r g) ∧
      powerProduct r (flatten (gatherPower groups b e)) = powerProduct r (flatten groups) * value r (pow b e) := by
  obtain ⟨n, rfl, base, nonzero⟩ := added.of_pow
  have parts : (ofInt n).splitNumber = (Scalar.ofInt n, 1) := rfl
  induction groups with
  | nil =>
    rw [gatherPower, parts]
    refine ⟨?_, by simp [flatten, powersOf]⟩
    simp only [mem_singleton, forall_eq]
    exact ⟨base, by simp [Plain], by simpa [powersOf] using added⟩
  | cons g groups ih =>
    obtain ⟨b', es⟩ := g
    obtain ⟨first, rest⟩ := forall_mem_cons.mp gathered
    rw [gatherPower, parts]
    simp only
    split
    · rename_i equal
      obtain rfl := base.eq_of_same first.base equal
      obtain ⟨plain, powers, product⟩ := gatherExponent_powers first.plain first.powers added
      refine ⟨forall_mem_cons.mpr ⟨⟨base, plain, powers⟩, rest⟩, ?_⟩
      simp only [flatten_cons, powerProduct_append, product, num_ofInt]
      ring
    · obtain ⟨gathered', product⟩ := ih rest
      refine ⟨forall_mem_cons.mpr ⟨first, gathered'⟩, ?_⟩
      rw [flatten_cons, flatten_cons, powerProduct_append, powerProduct_append, product, mul_assoc]

theorem foldl_gatherPower (gathered : ∀ g ∈ groups, GroupDefined r g) (defined : PowersDefined r powers) :
    (∀ g ∈ powers.foldl (fun acc (b, e) => gatherPower acc b e) groups, GroupDefined r g) ∧
      powerProduct r (flatten (powers.foldl (fun acc (b, e) => gatherPower acc b e) groups)) =
        powerProduct r (flatten groups) * powerProduct r powers := by
  induction powers generalizing groups with
  | nil => exact ⟨gathered, by simp⟩
  | cons p powers ih =>
    obtain ⟨first, rest⟩ := powersDefined_cons.mp defined
    obtain ⟨gathered', product⟩ := gatherPower_powers gathered first
    obtain ⟨all, product'⟩ := ih gathered' rest
    refine ⟨all, ?_⟩
    rw [foldl_cons, product', product, powerProduct_cons, mul_assoc]

/-- Gathering powers keeps their product. The exponents that are gathered are numbers, so that they are put
together as they are. -/
theorem PowersDefined.gather (ops : Operations) (defined : PowersDefined r powers) :
    PowersDefined r (gather ops powers) ∧ powerProduct r (gather ops powers) = powerProduct r powers := by
  have empty : ∀ g ∈ ([] : List (Coeff × List (Coeff × Scalar))), GroupDefined r g := by simp
  obtain ⟨gathered, product⟩ := foldl_gatherPower empty defined
  have same : Coeff.gather ops powers = flatten (powers.foldl (fun acc (b, e) => gatherPower acc b e) []) := by
    refine flatMap_congr fun g mem => map_congr_left fun x inside => ?_
    obtain ⟨t, c⟩ := x
    obtain rfl : t = 1 := (gathered g mem).plain (t, c) inside
    obtain ⟨n, exponent, -⟩ := ((gathered g mem).powers (g.1, num c) (mem_map_of_mem inside)).of_pow
    cases exponent
    have whole : Scalar.ofInt n * .exact 1 = Scalar.ofInt n := by
      show Scalar.exact ((n : ℚ) * 1) = .exact n
      rw [mul_one]
    rw [Coeff.one_eq]
    simp [scaleTerm, whole]
  rw [same]
  refine ⟨?_, by simpa [flatten] using product⟩
  intro p mem
  obtain ⟨g, inside, mem⟩ := mem_flatMap.mp mem
  exact (gathered g inside).powers p mem

end Bladewright.Coeff
