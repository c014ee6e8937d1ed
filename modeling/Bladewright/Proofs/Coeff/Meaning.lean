import Bladewright.Coeff.Emit
import Mathlib.Algebra.Order.Field.Rat
import Mathlib.Algebra.Order.Ring.Cast
import Mathlib.Algebra.BigOperators.Group.List.Basic
import Mathlib.Algebra.BigOperators.Ring.List
import Mathlib.Algebra.GroupWithZero.Basic
import Mathlib.Tactic.Ring

/-!
What coefficients mean: given numbers for the host scalars and for the components of host inputs, an expression of
exact numbers, sums, products and whole powers has a rational value.
-/
namespace Bladewright

open Coeff Ordering

namespace Scalar

def IsExact (c : Scalar) : Prop := ∃ q : ℚ, c = exact q

def rational (c : Scalar) : ℚ := c.toExact?.getD 0

@[simp] theorem isExact_exact (q : ℚ) : (exact q).IsExact := ⟨q, rfl⟩

@[simp] theorem rational_exact (q : ℚ) : (exact q).rational = q := rfl

theorem IsExact.eq {c : Scalar} (h : c.IsExact) : c = exact c.rational := by
  obtain ⟨q, rfl⟩ := h
  rfl

theorem one_eq : (1 : Scalar) = exact 1 := by
  show exact ((1 : Nat) : ℚ) = exact 1
  rw [Nat.cast_one]

theorem zero_eq : (0 : Scalar) = exact 0 := by
  show exact ((0 : Nat) : ℚ) = exact 0
  rw [Nat.cast_zero]

theorem exact_add (p q : ℚ) : exact p + exact q = exact (p + q) := rfl

theorem exact_mul (p q : ℚ) : exact p * exact q = exact (p * q) := rfl

theorem exact_neg (q : ℚ) : -exact q = exact (-q) := rfl

@[simp] theorem isZero_exact (q : ℚ) : (exact q).isZero = decide (q = 0) := by
  simp [isZero, beq_eq_decide]

@[simp] theorem isOne_exact (q : ℚ) : (exact q).isOne = decide (q = 1) := by
  rw [isOne, one_eq, beq_eq_decide]
  exact decide_eq_decide.mpr ⟨by rintro ⟨⟩; rfl, by rintro rfl; rfl⟩

@[simp] theorem exact_beq_zero (q : ℚ) : (exact q == (0 : Scalar)) = decide (q = 0) := by
  rw [zero_eq, beq_eq_decide]
  exact decide_eq_decide.mpr ⟨by rintro ⟨⟩; rfl, by rintro rfl; rfl⟩

theorem toInt?_exact_intCast (n : ℤ) : (exact (n : ℚ)).toInt? = some n := by
  simp [toInt?]

theorem exact_of_toInt? {c : Scalar} {n : ℤ} (found : c.toInt? = some n) : c = exact n := by
  cases c with
  | exact q =>
    simp only [toInt?] at found
    split at found
    · rename_i whole
      cases found
      rw [← Rat.den_eq_one_iff q |>.mp whole]
      simp
    · cases found
  | _ => cases found

theorem eq_of_cmp {p q : ℚ} (equal : (exact p).cmp (exact q) = .eq) : p = q := by
  simp only [cmp, then_eq_eq] at equal
  obtain ⟨_, num, den⟩ := equal
  exact Rat.ext (Std.LawfulEqOrd.eq_of_compare num) (Std.LawfulEqOrd.eq_of_compare den)

theorem rank_exact_lt (q : ℚ) : (exact q).rank < 10 := by
  unfold rank
  simp only
  split_ifs <;> decide

end Scalar

/-- Numbers for host scalars, as far as they have one, and for components of host inputs. -/
structure Reading where
  scalar : String → Option ℚ
  component : String → Option Nat → ℚ

namespace Coeff

open Scalar

def readAt (r : Reading) : List Coeff → ℚ
  | [sym s] => r.component s none
  | [sym s, num (.exact q)] => r.component s (some q.num.natAbs)
  | _ => 0

mutual

def value (r : Reading) : Coeff → ℚ
  | num c => c.rational
  | sym s => (r.scalar s).getD 0
  | const _ => 0
  | app _ args => readAt r args
  | pow b e => value r b ^ e.toInt?.getD 0
  | prod c fs => c.rational * (values r fs).prod
  | sum c ts => c.rational + (values r ts).sum

def values (r : Reading) : List Coeff → List ℚ
  | [] => []
  | e :: es => value r e :: values r es

end

/-- The expressions that have a value: reads and scalars with numbers, whole powers that divide by nothing
that vanishes, and products and sums of such expressions. -/
inductive Defined (r : Reading) : Coeff → Prop
  | num (q : ℚ) : Defined r (num (.exact q))
  | sym {s : String} (known : (r.scalar s).isSome) : Defined r (sym s)
  | only (s : String) : Defined r (app "getcomponent" [sym s])
  | component (s : String) (i : Nat) : Defined r (app "getcomponent" [sym s, ofInt i])
  | pow {b : Coeff} {n : ℤ} (base : Defined r b) (nonzero : n < 0 → value r b ≠ 0) : Defined r (pow b (ofInt n))
  | prod {fs : List Coeff} (c : ℚ) (factors : ∀ f ∈ fs, Defined r f) : Defined r (prod (.exact c) fs)
  | sum {ts : List Coeff} (c : ℚ) (terms : ∀ t ∈ ts, Defined r t) : Defined r (sum (.exact c) ts)

/-- An expression has a value, and it is this one. -/
structure Means (r : Reading) (e : Coeff) (x : ℚ) : Prop where
  defined : Defined r e
  value_eq : value r e = x

variable {r : Reading}

variable {e b a : Coeff} {fs ts xs ys : List Coeff} {c : Scalar} {name : String}

theorem Defined.means (defined : Defined r e) : Means r e (value r e) := ⟨defined, rfl⟩

theorem values_eq_map (es : List Coeff) : values r es = es.map (value r) := by
  induction es with
  | nil => rfl
  | cons e es ih => rw [values, ih, List.map_cons]

@[simp] theorem value_num (c : Scalar) : value r (num c) = c.rational := rfl

@[simp] theorem value_prod (c : Scalar) (fs : List Coeff) :
    value r (prod c fs) = c.rational * (fs.map (value r)).prod := by
  rw [value, values_eq_map]

@[simp] theorem value_sum (c : Scalar) (ts : List Coeff) :
    value r (sum c ts) = c.rational + (ts.map (value r)).sum := by
  rw [value, values_eq_map]

@[simp] theorem num_ofInt (n : ℤ) : num (Scalar.ofInt n) = ofInt n := rfl

@[simp] theorem toInt?_ofInt (n : ℤ) : (ofInt n).toInt? = some n := toInt?_exact_intCast n

@[simp] theorem value_pow (b : Coeff) (n : ℤ) : value r (pow b (ofInt n)) = value r b ^ n := by
  simp [value]

@[simp] theorem value_ofInt (n : ℤ) : value r (ofInt n) = n := rfl

theorem one_eq : (1 : Coeff) = num (.exact 1) := by
  show num (.exact ((1 : Nat) : ℚ)) = num (.exact 1)
  rw [Nat.cast_one]

theorem zero_eq : (0 : Coeff) = num (.exact 0) := by
  show num (.exact ((0 : Nat) : ℚ)) = num (.exact 0)
  rw [Nat.cast_zero]

theorem one_eq_ofInt : (1 : Coeff) = ofInt 1 := by
  rw [one_eq, ofInt, Scalar.ofInt, Int.cast_one]

theorem means_num (q : ℚ) : Means r (num (.exact q)) q := ⟨.num q, rfl⟩

theorem means_ofInt (n : ℤ) : Means r (ofInt n) n := means_num n

theorem means_one : Means r 1 1 := one_eq ▸ means_num 1

theorem means_zero : Means r 0 0 := zero_eq ▸ means_num 0

theorem means_pow {x : ℚ} {n : ℤ} (base : Means r b x) (nonzero : n < 0 → x ≠ 0) : Means r (pow b (ofInt n)) (x ^ n) :=
  ⟨.pow base.defined (base.value_eq ▸ nonzero), by rw [value_pow, base.value_eq]⟩

theorem means_prod (c : ℚ) (factors : ∀ f ∈ fs, Defined r f) :
    Means r (prod (.exact c) fs) (c * (fs.map (value r)).prod) :=
  ⟨.prod c factors, value_prod _ _⟩

theorem means_sum (c : ℚ) (terms : ∀ t ∈ ts, Defined r t) : Means r (sum (.exact c) ts) (c + (ts.map (value r)).sum) :=
  ⟨.sum c terms, value_sum _ _⟩

/-! ### Sameness -/

theorem rank_eq_of_cmpRank (equal : cmpRank a b = .eq) : a.rank.1 = b.rank.1 := by
  simp only [cmpRank, then_eq_eq] at equal
  exact Std.LawfulEqOrd.eq_of_compare equal.1

theorem rankName_getcomponent : rankName "getcomponent" = (100, "getcomponent") := by decide

def formAt (rank : Nat) : Nat :=
  if rank < 10 then 0 else if rank = 13 then 1 else if rank = 15 then 4 else if rank = 16 then 5
  else if rank = 17 then 6 else 3

theorem Defined.formAt_rank (defined : Defined r e) : formAt e.rank.1 = e.ctorIdx := by
  cases defined with
  | num q => exact if_pos (rank_exact_lt q)
  | pow base => cases base <;> rfl
  | only | component =>
    rw [rank, rankName_getcomponent]
    rfl
  | _ => rfl

theorem cmp_of_ctorIdx_ne (differ : a.ctorIdx ≠ b.ctorIdx) : cmp a b = cmpRank a b := by
  cases a <;> cases b <;> first | rfl | exact absurd rfl differ

/-- Expressions of different forms never compare as the same. -/
theorem Defined.ctorIdx_eq (left : Defined r a) (right : Defined r b) (equal : cmp a b = .eq) :
    a.ctorIdx = b.ctorIdx := by
  by_contra differ
  rw [cmp_of_ctorIdx_ne differ] at equal
  apply differ
  rw [← left.formAt_rank, ← right.formAt_rank, rank_eq_of_cmpRank equal]

theorem eq_of_cmpList (members : ∀ x ∈ xs, ∀ y ∈ ys, cmp x y = .eq → x = y)
    (equal : cmpList xs ys = .eq) : xs = ys := by
  induction xs generalizing ys with
  | nil =>
    cases ys with
    | nil => rfl
    | cons y ys => cases equal
  | cons x xs ih =>
    cases ys with
    | nil => cases equal
    | cons y ys =>
      rw [cmpList, then_eq_eq] at equal
      rw [members x (by simp) y (by simp) equal.1,
        ih (fun x inside y inside' => members x (by simp [inside]) y (by simp [inside'])) equal.2]

theorem eq_of_cmp_app (members : ∀ x ∈ xs, ∀ y ∈ ys, cmp x y = .eq → x = y)
    (equal : cmp (app "getcomponent" xs) (app "getcomponent" ys) = .eq) : xs = ys := by
  simp only [cmp, then_eq_eq] at equal
  exact eq_of_cmpList members equal.2.2

theorem eq_of_cmp_sym {s t : String} (equal : cmp (sym s) (sym t) = .eq) : s = t := by
  rw [cmp] at equal
  exact Std.LawfulEqOrd.eq_of_compare equal

theorem eq_of_cmp_num {p q : ℚ} (equal : cmp (num (.exact p)) (num (.exact q)) = .eq) : p = q := by
  rw [cmp] at equal
  exact Scalar.eq_of_cmp equal

theorem Defined.eq_of_cmp (left : Defined r a) (right : Defined r b) (equal : cmp a b = .eq) : a = b := by
  have form := left.ctorIdx_eq right equal
  induction left generalizing b with
  | num p =>
    cases right with
    | num q => rw [eq_of_cmp_num equal]
    | _ => cases form
  | @sym s _ =>
    cases right with
    | @sym t _ => rw [eq_of_cmp_sym equal]
    | _ => cases form
  | only s =>
    cases right with
    | only t => rw [eq_of_cmp_app (by simpa using eq_of_cmp_sym) equal]
    | component t i =>
      simp [cmp, then_eq_eq] at equal
    | _ => cases form
  | component s i =>
    cases right with
    | only t =>
      simp [cmp, then_eq_eq] at equal
    | component t j =>
      simp only [cmp, cmpList, then_eq_eq] at equal
      obtain ⟨-, -, name, index, -⟩ := equal
      rw [Std.LawfulEqOrd.eq_of_compare name, ofInt, ofInt, Scalar.ofInt, Scalar.ofInt, Scalar.eq_of_cmp index]
    | _ => cases form
  | pow base nonzero ih =>
    cases right with
    | pow base' nonzero' =>
      simp only [cmp, then_eq_eq] at equal
      obtain ⟨-, bases, exponents⟩ := equal
      rw [ih base' bases (base.ctorIdx_eq base' bases), ofInt, ofInt, Scalar.ofInt, Scalar.ofInt,
        eq_of_cmp_num exponents]
    | _ => cases form
  | prod c factors ih =>
    cases right with
    | prod d factors' =>
      simp only [cmp, then_eq_eq] at equal
      obtain ⟨-, rest⟩ := equal
      split at rest
      · split at rest <;> cases rest
      · rw [then_eq_eq] at rest
        rw [Scalar.eq_of_cmp rest.1, eq_of_cmpList (fun f mem g mem' same =>
          ih f mem (factors' g mem') same ((factors f mem).ctorIdx_eq (factors' g mem') same)) rest.2]
    | _ => cases form
  | sum c terms ih =>
    cases right with
    | sum d terms' =>
      simp only [cmp, then_eq_eq] at equal
      obtain ⟨-, rest⟩ := equal
      split at rest
      · split at rest <;> cases rest
      · rw [then_eq_eq] at rest
        rw [Scalar.eq_of_cmp rest.1, eq_of_cmpList (fun f mem g mem' same =>
          ih f mem (terms' g mem') same ((terms f mem).ctorIdx_eq (terms' g mem') same)) rest.2]
    | _ => cases form

theorem Defined.eq_of_same (left : Defined r a) (right : Defined r b) (equal : same a b = true) : a = b :=
  left.eq_of_cmp right (by simpa [same] using equal)

/-! ### Parts -/

theorem Defined.of_num (defined : Defined r (Coeff.num c)) : c.IsExact := by
  cases defined with
  | num q => exact ⟨q, rfl⟩

theorem splitNumber_prod (c : ℚ) (fs : List Coeff) : (prod (.exact c) fs).splitNumber =
    match fs with
    | [f] => (.exact c, f)
    | fs => (.exact c, prod 1 fs) := by
  rcases fs with _ | ⟨f, _ | ⟨g, fs⟩⟩ <;> rfl

theorem Defined.splitNumber (defined : Defined r e) : e.splitNumber.1.IsExact ∧ Defined r e.splitNumber.2 ∧
      value r e = e.splitNumber.1.rational * value r e.splitNumber.2 := by
  have whole : Scalar.IsExact 1 ∧ Defined r e ∧ value r e = Scalar.rational 1 * value r e := by
    rw [Scalar.one_eq]
    exact ⟨⟨1, rfl⟩, defined, by simp⟩
  cases defined with
  | num q => exact ⟨⟨q, rfl⟩, means_one.defined, by simp [splitNumber, means_one.value_eq]⟩
  | @prod fs c factors =>
    rw [splitNumber_prod]
    split
    · exact ⟨⟨c, rfl⟩, factors _ (by simp), by simp⟩
    · rw [Scalar.one_eq]
      exact ⟨⟨c, rfl⟩, .prod 1 factors, by simp⟩
  | _ => exact whole

theorem means_withNumber (c : ℚ) (defined : Defined r e) : Means r (withNumber (.exact c) e) (c * value r e) := by
  have single : Means r (prod (.exact c) [e]) (c * value r e) := by
    have factors : ∀ f ∈ [e], Defined r f := by simpa using defined
    simpa using means_prod c factors
  unfold withNumber
  split
  · rename_i one
    simp only [isOne_exact, decide_eq_true_eq] at one
    rw [one, one_mul]
    exact defined.means
  · cases defined with
    | num q => exact means_num (c * q)
    | @prod fs d factors =>
      simp only
      split
      · rename_i one
        simp only [isOne_exact, decide_eq_true_eq] at one
        simpa [one] using means_prod c factors
      · exact single
    | _ => exact single

theorem means_scaleTerm (c : ℚ) (defined : Defined r e) : Means r (scaleTerm (.exact c) e) (c * value r e) := by
  cases defined with
  | num q => exact means_num (c * q)
  | @prod fs d factors =>
    rw [value_prod, rational_exact, ← mul_assoc]
    unfold scaleTerm
    by_cases zero : c * d = 0
    · simp only [exact_mul, zero, isZero_exact, decide_true, if_true, zero_mul]
      exact means_num 0
    · simp only [exact_mul, isZero_exact, zero, decide_false, Bool.false_eq_true, if_false]
      split
      · rename_i f one
        rw [isOne_exact, decide_eq_true_eq] at one
        simpa [one] using (factors f (by simp)).means
      · exact means_prod (c * d) factors
  | sym known => exact means_withNumber c (.sym known)
  | only s => exact means_withNumber c (.only s)
  | component s i => exact means_withNumber c (.component s i)
  | pow base nonzero => exact means_withNumber c (.pow base nonzero)
  | sum d terms => exact means_withNumber c (.sum d terms)

theorem Defined.summands (defined : Defined r e) :
    (∀ t ∈ e.summands, Defined r t) ∧ (e.summands.map (value r)).sum = value r e := by
  have whole : (∀ t ∈ [e], Defined r t) ∧ ([e].map (value r)).sum = value r e :=
    ⟨by simpa using defined, by simp⟩
  cases defined with
  | @sum ts c terms =>
    unfold summands
    by_cases zero : c = 0
    · simp only [zero, exact_beq_zero, decide_true, if_true]
      exact ⟨terms, by simp⟩
    · simp only [exact_beq_zero, zero, decide_false]
      exact ⟨by simpa using ⟨Defined.num c, terms⟩, by simp⟩
  | _ => exact whole

theorem Defined.multiplicands (defined : Defined r e) :
    (∀ f ∈ e.multiplicands, Defined r f) ∧ (e.multiplicands.map (value r)).prod = value r e := by
  have whole : (∀ f ∈ [e], Defined r f) ∧ ([e].map (value r)).prod = value r e :=
    ⟨by simpa using defined, by simp⟩
  cases defined with
  | @prod fs c factors =>
    unfold multiplicands
    by_cases one : c = 1
    · simp only [one, isOne_exact, decide_true, if_true]
      exact ⟨factors, by simp⟩
    · simp only [isOne_exact, one, decide_false]
      exact ⟨by simpa using ⟨Defined.num c, factors⟩, by simp⟩
  | _ => exact whole

theorem oppositeExponent_ofInt (n : ℤ) : oppositeExponent (ofInt n) = ofInt (-n) := by
  show num (.exact (((-1 : ℤ) : ℚ) * (n : ℚ))) = num (.exact ((-n : ℤ) : ℚ))
  push_cast
  rw [neg_one_mul]

theorem Defined.baseExponent (defined : Defined r e) :
    Means r (Coeff.pow e.baseExponent.1 e.baseExponent.2) (value r e) := by
  have whole : Means r (Coeff.pow e 1) (value r e) := by
    have := means_pow (n := 1) defined.means (by omega)
    rwa [zpow_one, ← one_eq_ofInt] at this
  cases defined with
  | @pow b n base nonzero =>
    have plain := means_pow base.means nonzero
    rw [value_pow]
    cases base with
    | num q =>
      simp only [baseExponent]
      split
      · have turned := means_pow (n := -n) (means_num (r := r) q⁻¹) (fun _ zero => by
          rename_i unit _
          simp [isUnitFraction, inv_eq_zero.mp zero] at unit)
        rw [oppositeExponent_ofInt]
        rwa [inv_zpow', neg_neg] at turned
      · exact plain
    | _ => exact plain
  | _ => exact whole

/-! ### Names -/

theorem mem_symbols_app {f : String} {args : List Coeff} :
    name ∈ (app f args).symbols ↔ ∃ a ∈ args, name ∈ a.symbols := by
  simp [symbols]

theorem mem_symbols_prod : name ∈ (prod c fs).symbols ↔ ∃ f ∈ fs, name ∈ f.symbols := by
  simp [symbols]

theorem mem_symbols_sum : name ∈ (sum c ts).symbols ↔ ∃ t ∈ ts, name ∈ t.symbols := by
  simp [symbols]

end Coeff

end Bladewright
