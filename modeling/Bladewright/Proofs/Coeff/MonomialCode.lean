import Bladewright.Proofs.Coeff.Emit
import Bladewright.Proofs.Coeff.Monomials

/-!
The code of sums of signed products of two reads. Code of so many terms is nested as deep as there are terms, and a few
levels more (`IsTotal.computes`, `IsTotal.length_le_nesting`).
-/
namespace Bladewright.Coeff

open List Scalar Host

variable {α : Type} [CommRing α] {V : Nat → Expr → α → Prop}

/-- A meaning of code that is nested no deeper than a bound, in which arithmetic has its meaning in a commutative ring. -/
structure Interprets (V : Nat → Expr → α → Prop) : Prop where
  deeper {k l : Nat} {a : Expr} {x : α} : V k a x → k ≤ l → V l a x
  minus {k : Nat} {a : Expr} {x : α} : V k a x → V (k + 1) (.unary .minus a) (-x)
  add {k : Nat} {a b : Expr} {x y : α} : V k a x → V k b y → V (k + 1) (.binary .add a b) (x + y)
  sub {k : Nat} {a b : Expr} {x y : α} : V k a x → V k b y → V (k + 1) (.binary .sub a b) (x - y)
  mul {k : Nat} {a b : Expr} {x y : α} : V k a x → V k b y → V (k + 1) (.binary .mul a b) (x * y)

def Computes (V : Expr → α → Prop) (code : Code) (x : α) : Prop := ∃ c, code = .ok c ∧ V c x

theorem Computes.deeper (interprets : Interprets V) {k l : Nat} {code : Code} {x : α} (computes : Computes (V k) code x)
    (more : k ≤ l) : Computes (V l) code x := by
  obtain ⟨c, emitted, value⟩ := computes
  exact ⟨c, emitted, interprets.deeper value more⟩

section

variable {code : Coeff → Code} {value : Coeff → α}

variable {fs ts : List Coeff} {start : Code} {j k : Nat}

theorem computes_foldl_factors (interprets : Interprets V) (each : ∀ f ∈ fs, Computes (V j) (code f) (value f)) {x : α}
    (first : Computes (V k) start x) (lower : j ≤ k) :
    Computes (V (k + fs.length)) ((fs.map code).foldl (fun left right => do
      let left ← left
      return .binary .mul left (← right)) start) (x * (fs.map value).prod) := by
  induction fs generalizing start x k with
  | nil => simpa using first
  | cons f fs ih =>
    rw [forall_mem_cons] at each
    obtain ⟨a, rfl, left⟩ := first
    obtain ⟨b, emitted, right⟩ := each.1
    rw [map_cons, foldl_cons, map_cons, prod_cons, ← mul_assoc, emitted, length_cons, Nat.add_comm fs.length,
      ← Nat.add_assoc]
    exact ih each.2 ⟨_, rfl, interprets.mul left (interprets.deeper right lower)⟩ (Nat.le_succ_of_le lower)

theorem computes_joinProduct (interprets : Interprets V) (nonempty : fs ≠ [])
    (each : ∀ f ∈ fs, Computes (V j) (code f) (value f)) :
    Computes (V (j + fs.length)) (joinProduct (fs.map code)) (fs.map value).prod := by
  cases fs with
  | nil => exact absurd rfl nonempty
  | cons f fs =>
    rw [forall_mem_cons] at each
    rw [map_cons, map_cons, prod_cons]
    exact (computes_foldl_factors interprets each.2 each.1 le_rfl).deeper interprets (by simp)

theorem computes_foldl_terms (interprets : Interprets V) (each : ∀ t ∈ ts, Computes (V j) (code t) (value t))
    (negative : ∀ t ∈ ts, t.splitNumber.1.isNegative = true → Computes (V j) (code t.neg) (-value t))
    {x : α} (first : Computes (V k) start x) (lower : j ≤ k) :
    Computes (V (k + ts.length)) (ts.foldl (fun left term => do
      let left ← left
      if term.splitNumber.1.isNegative then return .binary .sub left (← code term.neg)
      return .binary .add left (← code term)) start) (x + (ts.map value).sum) := by
  induction ts generalizing start x k with
  | nil => simpa using first
  | cons t ts ih =>
    rw [forall_mem_cons] at each negative
    obtain ⟨a, rfl, left⟩ := first
    rw [foldl_cons, map_cons, sum_cons, ← add_assoc, length_cons, Nat.add_comm ts.length, ← Nat.add_assoc]
    refine ih each.2 negative.2 ?_ (Nat.le_succ_of_le lower)
    by_cases sign : t.splitNumber.1.isNegative = true
    · obtain ⟨b, emitted, right⟩ := negative.1 sign
      refine ⟨.binary .sub a b, ?_, sub_neg_eq_add x (value t) ▸ interprets.sub left (interprets.deeper right lower)⟩
      show (if t.splitNumber.1.isNegative = true then _ else _) = _
      rw [if_pos sign, emitted]
      rfl
    · obtain ⟨b, emitted, right⟩ := each.1
      refine ⟨.binary .add a b, ?_, interprets.add left (interprets.deeper right lower)⟩
      show (if t.splitNumber.1.isNegative = true then _ else _) = _
      rw [if_neg sign, emitted]
      rfl

theorem computes_joinSum (interprets : Interprets V) (nonempty : ts ≠ [])
    (each : ∀ t ∈ ts, Computes (V j) (code t) (value t))
    (negative : ∀ t ∈ ts, t.splitNumber.1.isNegative = true → Computes (V j) (code t.neg) (-value t)) :
    Computes (V (j + ts.length)) (joinSum code ts) (ts.map value).sum := by
  cases ts with
  | nil => exact absurd rfl nonempty
  | cons t ts =>
    rw [forall_mem_cons] at each negative
    rw [map_cons, sum_cons]
    exact (computes_foldl_terms interprets each.2 negative.2 each.1 le_rfl).deeper interprets (by simp)

theorem nesting_foldl_terms {c : Expr} (emitted : ts.foldl (fun left term => do
      let left ← left
      if term.splitNumber.1.isNegative then return .binary .sub left (← code term.neg)
      return .binary .add left (← code term)) start = .ok c) : ∃ a, start = .ok a ∧ a.nesting + ts.length ≤ c.nesting := by
  induction ts generalizing start with
  | nil => exact ⟨c, emitted, le_rfl⟩
  | cons t ts ih =>
    obtain ⟨b, joined, deep⟩ := ih emitted
    obtain ⟨a, given, joined⟩ := Outcome.of_bind joined
    refine ⟨a, given, ?_⟩
    have outer : a.nesting + 1 ≤ b.nesting := by
      split at joined
      all_goals
        obtain ⟨_, -, ⟨⟩⟩ := Outcome.of_bind joined
        rw [Expr.nesting]
        exact Nat.succ_le_succ (Nat.le_max_left ..)
    rw [length_cons]
    omega

/-- A sum is nested as deep as it has terms. -/
theorem length_le_nesting_joinSum {c : Expr} (emitted : joinSum code ts = .ok c) : ts.length ≤ c.nesting + 1 := by
  cases ts with
  | nil => exact Nat.zero_le _
  | cons t ts =>
    obtain ⟨a, -, deep⟩ := nesting_foldl_terms emitted
    rw [length_cons]
    omega

end

/-! ### Signed products -/

variable {read : Coeff → α} {x y e : Coeff}

def ReadsAs (V : Nat → Expr → α → Prop) (read : Coeff → α) (x : Coeff) : Prop :=
  ∀ depth, Computes (V 0) (emitDeep (depth + 2) x) (read x)

/-- A product of two different reads with a sign. -/
structure IsSigned (sign : ℤ) (x y e : Coeff) : Prop where
  unit : sign = 1 ∨ sign = -1
  left : IsRead x
  right : IsRead y
  differ : x ≠ y
  monomial : IsMonomial sign [x, y] e

/-- What a product of reads with a whole number in front stands for. -/
def valueOf (read : Coeff → α) : Coeff → α
  | prod (.exact q) fs => (q.num : α) * (fs.map read).prod
  | e => read e

theorem IsSigned.valueOf {sign : ℤ} (signed : IsSigned sign x y e) :
    valueOf read e = (sign : α) * (read x * read y) := by
  obtain ⟨fs, perm, rfl⟩ := signed.monomial
  simp [Coeff.valueOf, (perm.map read).prod_eq]

theorem IsSigned.proper {sign : ℤ} (signed : IsSigned sign x y e) : IsProper e := by
  obtain ⟨fs, perm, rfl⟩ := signed.monomial
  refine ⟨sign, fs, rfl, ?_, perm.length_eq.ge, ?_⟩
  · rcases signed.unit with rfl | rfl <;> norm_num
  · exact forall_mem_of_perm_pair perm signed.left signed.right

theorem isSigned_signedMul {sign : ℤ} (unit : sign = 1 ∨ sign = -1) (left : IsRead x) (right : IsRead y)
    (differ : x ≠ y) : IsSigned sign x y (Terms.signedMul sign x y) :=
  ⟨unit, left, right, differ, isMonomial_signedMul unit left right differ⟩

theorem computes_product (interprets : Interprets V) {fs : List Coeff} (nonempty : fs ≠ [])
    (reads : ∀ f ∈ fs, IsRead f) (each : ∀ f ∈ fs, ReadsAs V read f) (depth : Nat) :
    Computes (V fs.length) (emitDeep (depth + 3) (prod (.exact 1) fs)) (fs.map read).prod := by
  have parts : (prod (.exact 1) fs).multiplicands = fs := by simp [multiplicands]
  have whole : (prod (.exact 1) fs).fraction.2 = 1 := by
    have undivided : (fs.map fractionParts).flatMap (·.2) = [] := by
      rw [flatMap_map, flatMap_eq_nil_iff]
      intro f mem
      obtain ⟨source, i, rfl⟩ := reads f mem
      rfl
    rw [fraction, parts]
    simp only [undivided]
    rfl
  have emitted : emitDeep (depth + 3) (prod (.exact 1) fs) =
      joinProduct ((prod (.exact 1) fs).orderedFactors.map (emitDeep (depth + 2))) := by
    show emitProduct (emitDeep (depth + 2)) (.exact 1) fs = _
    unfold emitProduct
    simp only [whole]
    rfl
  have perm := orderedFactors_perm (prod (.exact 1) fs)
  rw [parts] at perm
  rw [emitted, ← (perm.map read).prod_eq, ← perm.length_eq, ← Nat.zero_add (List.length _)]
  refine computes_joinProduct interprets ?_ fun f mem => each f (perm.mem_iff.mp mem) depth
  rintro empty
  exact nonempty (perm_nil.mp (empty ▸ perm.symm))

theorem IsMonomial.computes (interprets : Interprets V) (monomial : IsMonomial 1 [x, y] e) (left : IsRead x)
    (right : IsRead y) (first : ReadsAs V read x) (second : ReadsAs V read y) (depth : Nat) :
    Computes (V 2) (emitDeep (depth + 3) e) (read x * read y) := by
  obtain ⟨fs, perm, rfl⟩ := monomial
  have product : (fs.map read).prod = read x * read y := by simp [(perm.map read).prod_eq]
  have nonempty : fs ≠ [] := ne_nil_of_length_pos (perm.length_eq ▸ Nat.succ_pos 1)
  rw [← product, ← show fs.length = 2 from perm.length_eq]
  exact computes_product interprets nonempty (forall_mem_of_perm_pair perm left right)
    (forall_mem_of_perm_pair perm first second) depth

theorem IsSigned.negative_iff {sign : ℤ} (signed : IsSigned sign x y e) :
    e.splitNumber.1.isNegative = true ↔ sign = -1 := by
  obtain ⟨fs, perm, rfl⟩ := signed.monomial
  rw [splitNumber_several perm.length_eq.ge]
  rcases signed.unit with rfl | rfl <;> norm_num [isNegative]

namespace IsSigned

variable {sign : ℤ} (interprets : Interprets V) (signed : IsSigned sign x y e) (first : ReadsAs V read x)
  (second : ReadsAs V read y) (depth : Nat)
include interprets signed first second

theorem computes_neg (negative : sign = -1) :
    Computes (V 2) (emitDeep (depth + 3) e.neg) (-Coeff.valueOf read e) := by
  rw [signed.valueOf]
  obtain ⟨-, left, right, differ, monomial⟩ := signed
  rw [negative, Int.cast_neg, Int.cast_one] at monomial ⊢
  rw [neg_one_mul, neg_neg]
  exact (monomial.neg left right differ).computes interprets left right first second depth

theorem computes : Computes (V 3) (emitDeep (depth + 4) e) (Coeff.valueOf read e) := by
  rcases signed.unit with one | minus
  · have monomial := signed.monomial
    rw [signed.valueOf, one, Int.cast_one, one_mul]
    rw [one, Int.cast_one] at monomial
    exact (monomial.computes interprets signed.left signed.right first second (depth + 1)).deeper interprets (by decide)
  · obtain ⟨c, emitted, value⟩ := signed.computes_neg interprets first second depth minus
    have negative := signed.negative_iff.mpr minus
    obtain ⟨q, fs, rfl, -, several, -⟩ := signed.proper
    rw [splitNumber_several several] at negative
    refine ⟨.unary .minus c, ?_, neg_neg (Coeff.valueOf read _) ▸ interprets.minus value⟩
    show emitProduct (emitDeep (depth + 3)) (.exact q) fs = _
    rw [emitProduct, if_pos negative, emitted]
    rfl

end IsSigned

theorem IsTotal.computes (interprets : Interprets V) {es : List Coeff} (total : IsTotal es e)
    (signed : ∀ m ∈ es, ∃ sign x y, IsSigned sign x y m ∧ ReadsAs V read x ∧ ReadsAs V read y) :
    Computes (V (3 + es.length)) e.emit (es.map (valueOf read)).sum := by
  have term : ∀ m ∈ es, ∀ depth, Computes (V 3) (emitDeep (depth + 4) m) (valueOf read m) := by
    intro m mem depth
    obtain ⟨sign, x, y, signed, first, second⟩ := signed m mem
    exact signed.computes interprets first second depth
  -- a sum of negated products is five levels deep: the sum, the sign, the product, the read and its arguments
  have enough : ∃ depth, e.emit = emitDeep (depth + 5) e := ⟨8 * e.depth + 3, rfl⟩
  obtain ⟨depth, emitted⟩ := enough
  rw [emitted]
  rcases total with rfl | ⟨several, ts, perm, rfl⟩
  · simpa using (term e (mem_singleton_self e) (depth + 1)).deeper interprets (by decide : 3 ≤ 4)
  · have ordered := orderedTerms_perm (sum 0 ts)
    rw [summands_sum_zero] at ordered
    replace ordered := ordered.trans perm
    show Computes _ (joinSum (emitDeep (depth + 4)) (sum 0 ts).orderedTerms) _
    rw [← (ordered.map (valueOf read)).sum_eq, ← ordered.length_eq]
    refine computes_joinSum interprets ?_ (fun t mem => term t (ordered.mem_iff.mp mem) depth) ?_
    · exact ne_nil_of_length_pos (ordered.length_eq ▸ by omega)
    · intro t mem negative
      obtain ⟨sign, x, y, signed, first, second⟩ := signed t (ordered.mem_iff.mp mem)
      exact (signed.computes_neg interprets first second (depth + 1) (signed.negative_iff.mp negative)).deeper interprets
        (by decide)

theorem IsTotal.length_le_nesting {es : List Coeff} (total : IsTotal es e) {c : Expr} (emitted : e.emit = .ok c) :
    es.length ≤ c.nesting + 1 := by
  rcases total with rfl | ⟨several, ts, perm, rfl⟩
  · exact Nat.le_add_left ..
  · have ordered := orderedTerms_perm (sum 0 ts)
    rw [summands_sum_zero] at ordered
    rw [← (ordered.trans perm).length_eq]
    exact length_le_nesting_joinSum (show joinSum (emitDeep (8 * (sum 0 ts).depth + 7)) _ = _ from emitted)

end Bladewright.Coeff
