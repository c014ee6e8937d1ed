import Bladewright.Proofs.Coeff.CanonicalPower
import Bladewright.Proofs.Coeff.RationalFunction

/-!
The canonical order on products of powers of host inputs. The order of expressions turns around with its arguments
(`cmp_swap`), so every expression is the same as itself.
-/
namespace Bladewright

open List Std Ordering

namespace Scalar

theorem cmp_swap (a b : Scalar) : b.cmp a = (a.cmp b).swap := by
  unfold cmp
  rw [swap_then, ← OrientedOrd.eq_swap]
  cases a <;> cases b <;> first | rfl | simp only [swap_then, ← OrientedOrd.eq_swap]

end Scalar

namespace Coeff

theorem cmpRank_swap (a b : Coeff) : cmpRank b a = (cmpRank a b).swap := by
  rw [cmpRank, cmpRank, swap_then, ← OrientedOrd.eq_swap, ← OrientedOrd.eq_swap]

theorem cmpName_swap (f g : String) : cmpName g f = (cmpName f g).swap := by
  rcases eq_or_ne f g with rfl | differ
  · simp [cmpName]
  · rw [cmpName, cmpName, if_neg differ, if_neg differ.symm, swap_then, ← OrientedOrd.eq_swap, ← OrientedOrd.eq_swap]

theorem cmp_swap (a b : Coeff) : cmp b a = (cmp a b).swap := by
  apply cmp.induct (fun a b => cmp b a = (cmp a b).swap) (fun as bs => cmpList bs as = (cmpList as bs).swap)
  case case1 =>
    intro a b
    exact Scalar.cmp_swap a b
  case case2 =>
    intro a b
    exact OrientedOrd.eq_swap
  case case3 =>
    intro f xs g ys ih
    rw [cmp, cmp, ih, cmpName_swap]
    simp only [swap_then, ← OrientedOrd.eq_swap]
  case case4 =>
    intro b e b' e' ih ih'
    rw [cmp, cmp, ih, ih', cmpRank_swap]
    simp only [swap_then]
  case case5 =>
    intro c fs d gs ih
    rw [cmp, cmp, ih, Scalar.cmp_swap]
    simp only [swap_then, ← OrientedOrd.eq_swap]
    cases c.isOne <;> cases d.isOne <;> first | rfl | simp [swap_then]
  case case6 =>
    intro c ts d us ih
    rw [cmp, cmp, ih, Scalar.cmp_swap]
    simp only [swap_then, ← OrientedOrd.eq_swap]
    cases c == 0 <;> cases d == 0 <;> first | rfl | simp [swap_then]
  case case7 =>
    intro a b num sym app pow prod sum
    -- expressions of different kinds, and constants, are compared by their ranks
    cases a <;> cases b <;> first
      | exact cmpRank_swap _ _
      | exact (num _ _ rfl rfl).elim
      | exact (sym _ _ rfl rfl).elim
      | exact (app _ _ _ _ rfl rfl).elim
      | exact (pow _ _ _ _ rfl rfl).elim
      | exact (prod _ _ _ _ rfl rfl).elim
      | exact (sum _ _ _ _ rfl rfl).elim
  case case8 =>
    intro a as b bs ih ih'
    rw [cmpList, cmpList, ih, ih', swap_then]
  case case9 => rfl
  case case10 => intros; rfl
  case case11 => intros; rfl

theorem cmp_self (a : Coeff) : cmp a a = .eq := by
  have turned := cmp_swap a a
  cases order : cmp a a <;> rw [order] at turned <;> first | rfl | cases turned

theorem cmpList_self (es : List Coeff) : cmpList es es = .eq := by
  induction es with
  | nil => rfl
  | cons e es ih => rw [cmpList, cmp_self, ih, then_eq]

theorem same_self (a : Coeff) : same a a = true := by rw [same, cmp_self, beq_self_eq_true]

theorem same_comm (a b : Coeff) : same a b = same b a := by
  rw [same, same, cmp_swap]
  cases cmp b a <;> rfl

end Coeff

/-! ### Powers of host inputs -/

/-- The order of integers as numbers: zero, one and minus one come first. -/
def compareWhole : ℤ → ℤ → Ordering := compareLex (compareOn fun n => (Scalar.ofInt n).rank) compare

instance : TransCmp compareWhole := inferInstanceAs (TransCmp (compareLex _ _))

theorem eq_of_compareWhole {m n : ℤ} (equal : compareWhole m n = .eq) : m = n :=
  LawfulEqOrd.eq_of_compare (then_eq_eq.mp equal).2

theorem Coeff.cmp_whole (m n : ℤ) : cmp (ofInt m) (ofInt n) = compareWhole m n := by
  show (compare _ _).then ((compare (Rat.num m) (Rat.num n)).then (compare (Rat.den m) (Rat.den n))) = _
  rw [Rat.num_intCast, Rat.num_intCast, Rat.den_intCast, Rat.den_intCast]
  simp [compareWhole, compareLex, compareOn]

namespace Variable

def read : Variable → Coeff
  | scalar source => .sym source
  | component source none => .app "getcomponent" [.sym source]
  | component source (some i) => .app "getcomponent" [.sym source, .ofInt i]

def kind : Variable → Nat
  | scalar _ => 0
  | component _ none => 1
  | component _ (some _) => 2

def source : Variable → String
  | scalar source | component source _ => source

def index : Variable → ℤ
  | component _ (some i) => i
  | _ => 0

def cmp : Variable → Variable → Ordering :=
  compareLex (compareOn kind) (compareLex (compareOn source) fun v w => compareWhole v.index w.index)

instance : TransCmp fun v w : Variable => compareWhole v.index w.index where
  eq_swap := OrientedCmp.eq_swap
  isLE_trans := TransCmp.isLE_trans

instance : TransCmp Variable.cmp := inferInstanceAs (TransCmp (compareLex _ _))

theorem eq_of_cmp {v w : Variable} (equal : v.cmp w = .eq) : v = w := by
  obtain ⟨kinds, rest⟩ := then_eq_eq.mp equal
  obtain ⟨sources, indices⟩ := then_eq_eq.mp rest
  have kinds : v.kind = w.kind := LawfulEqOrd.eq_of_compare kinds
  have sources : v.source = w.source := LawfulEqOrd.eq_of_compare sources
  have indices : v.index = w.index := eq_of_compareWhole indices
  clear equal rest
  rcases v with s | ⟨s, _ | i⟩ <;> rcases w with t | ⟨t, _ | j⟩ <;> simp_all [kind, source, index]

theorem cmp_read (v w : Variable) : Coeff.cmp v.read w.read = v.cmp w := by
  have index : compareWhole 0 0 = .eq := ReflCmp.compare_self
  rcases v with s | ⟨s, _ | i⟩ <;> rcases w with t | ⟨t, _ | j⟩ <;>
    simp [read, cmp, compareLex, compareOn, kind, source, Variable.index, Coeff.cmp, Coeff.cmpList, Coeff.cmpRank,
      Coeff.cmpName, Coeff.rank, Coeff.rankName_getcomponent, Coeff.cmp_whole, index]
  all_goals rfl

end Variable

/-- The place of the kind of a power: exponents other than one stand between names and reads. -/
def factorKind (p : Variable × ℤ) : Nat := if p.2 = 1 then (if p.1.kind = 0 then 0 else 2) else 1

/-- The order of powers: by kind, input and exponent. -/
def compareFactor : Variable × ℤ → Variable × ℤ → Ordering :=
  compareLex (compareOn factorKind) (compareLex (fun p q => p.1.cmp q.1) fun p q => compareWhole p.2 q.2)

instance : TransCmp fun p q : Variable × ℤ => p.1.cmp q.1 where
  eq_swap := OrientedCmp.eq_swap
  isLE_trans := TransCmp.isLE_trans

instance : TransCmp fun p q : Variable × ℤ => compareWhole p.2 q.2 where
  eq_swap := OrientedCmp.eq_swap
  isLE_trans := TransCmp.isLE_trans

instance : TransCmp compareFactor := inferInstanceAs (TransCmp (compareLex _ _))

instance : LawfulEqCmp compareFactor where
  eq_of_compare equal := by
    obtain ⟨-, rest⟩ := then_eq_eq.mp equal
    obtain ⟨inputs, exponents⟩ := then_eq_eq.mp rest
    exact Prod.ext (Variable.eq_of_cmp inputs) (eq_of_compareWhole exponents)

theorem factorKind_cases (p : Variable × ℤ) : factorKind p = 0 ∨ factorKind p = 1 ∨ factorKind p = 2 := by
  unfold factorKind
  split_ifs <;> decide

namespace Coeff

def factor (p : Variable × ℤ) : Coeff := wholePower p.1.read p.2

theorem rank_read (v : Variable) : v.read.rank.1 = if v.kind = 0 then 13 else 100 := by
  rcases v with s | ⟨s, _ | i⟩ <;> simp [Variable.read, rank, rankName_getcomponent, Variable.kind]

theorem rank_pow_read (v : Variable) (e : Coeff) : (pow v.read e).rank = (15, "") := by
  rcases v with s | ⟨s, _ | i⟩ <;> rfl

theorem cmp_read_pow (v w : Variable) (e : Coeff) :
    cmp v.read (pow w.read e) = if v.kind = 0 then .lt else .gt := by
  have ranks : cmp v.read (pow w.read e) = cmpRank v.read (pow w.read e) := by
    rcases v with s | ⟨s, _ | i⟩ <;> rfl
  rw [ranks, cmpRank, rank_read, rank_pow_read]
  split <;> rfl

theorem cmp_factor (p q : Variable × ℤ) : cmp (factor p) (factor q) = compareFactor p q := by
  obtain ⟨v, m⟩ := p
  obtain ⟨w, n⟩ := q
  unfold factor wholePower compareFactor compareLex compareOn factorKind
  by_cases one : m = 1 <;> by_cases one' : n = 1
  · have exponents : compareWhole 1 1 = .eq := ReflCmp.compare_self
    simp only [one, one', if_true, Variable.cmp_read, exponents, then_eq]
    -- names come before reads in both orders
    rcases v with s | ⟨s, _ | i⟩ <;> rcases w with t | ⟨t, _ | j⟩ <;> rfl
  · simp only [one, one', if_true, if_false, cmp_read_pow]
    split <;> rfl
  · rw [cmp_swap]
    simp only [one, one', if_true, if_false, cmp_read_pow]
    split <;> rfl
  · simp [one, one', cmp, cmpRank, rank_pow_read, Variable.cmp_read, cmp_whole]

end Coeff

/-! ### Monomials -/

section

variable {α : Type} {cmp : α → α → Ordering} [TransCmp cmp]

theorem trans_of_cmp (a b c : α) (first : (cmp a b != .gt) = true) (second : (cmp b c != .gt) = true) :
    (cmp a c != .gt) = true := by
  rw [bne_iff_ne, ne_eq, ← isLE_iff_ne_gt] at *
  exact TransCmp.isLE_trans first second

theorem total_of_cmp (a b : α) : (cmp a b != .gt || cmp b a != .gt) = true := by
  have turned : cmp b a = (cmp a b).swap := OrientedCmp.eq_swap
  rw [turned]
  cases cmp a b <;> rfl

end

/-- Powers of distinct host inputs in their order. -/
@[ext] structure Monomial where
  powers : List (Variable × ℤ)
  sorted : powers.Pairwise fun p q => (compareFactor p q != .gt) = true
  distinct : (powers.map Prod.fst).Nodup
  nonzero : ∀ p ∈ powers, p.2 ≠ 0

namespace Monomial

/-- The monomial of powers in any order. -/
def ofPowers (powers : List (Variable × ℤ)) (distinct : (powers.map Prod.fst).Nodup)
    (nonzero : ∀ p ∈ powers, p.2 ≠ 0) : Monomial where
  powers := powers.mergeSort fun p q => compareFactor p q != .gt
  sorted := pairwise_mergeSort trans_of_cmp total_of_cmp powers
  distinct := ((mergeSort_perm _ _).map _).nodup_iff.mpr distinct
  nonzero p mem := nonzero p (mem_mergeSort.mp mem)

def kindOf : List (Variable × ℤ) → Nat
  | [p] => if factorKind p = 2 then 3 else factorKind p
  | _ => 2

def compareLists : List (Variable × ℤ) → List (Variable × ℤ) → Ordering :=
  compareLex (compareOn kindOf) (compareLex (compareOn List.length) (List.compareLex compareFactor))

instance : TransCmp compareLists := inferInstanceAs (TransCmp (compareLex _ _))

def cmp (m n : Monomial) : Ordering := compareLists m.powers n.powers

instance : TransCmp Monomial.cmp where
  eq_swap {_ _} := @OrientedCmp.eq_swap _ compareLists _ _ _
  isLE_trans {_ _ _} := @TransCmp.isLE_trans _ compareLists _ _ _ _

theorem cmp_self (m : Monomial) : m.cmp m = .eq := ReflCmp.compare_self

theorem eq_of_cmp {m n : Monomial} (equal : m.cmp n = .eq) : m = n := by
  obtain ⟨-, rest⟩ := then_eq_eq.mp equal
  obtain ⟨-, lists⟩ := then_eq_eq.mp rest
  exact Monomial.ext (LawfulEqCmp.eq_of_compare lists)

end Monomial

namespace Coeff

theorem arrange_factors (l : List (Variable × ℤ)) :
    arrange (l.map factor) = (l.mergeSort fun p q => compareFactor p q != .gt).map factor := by
  rw [arrange, sortBy, sortWithin_eq_mergeSort _ le_rfl]
  exact (map_mergeSort fun p _ q _ => by rw [cmp_factor]).symm

theorem cmpList_factors (l k : List (Variable × ℤ)) :
    cmpList (l.map factor) (k.map factor) = List.compareLex compareFactor l k := by
  induction l generalizing k with
  | nil => cases k <;> rfl
  | cons p l ih =>
    cases k with
    | nil => rfl
    | cons q k => rw [List.map_cons, List.map_cons, cmpList, ih, cmp_factor, List.compareLex_cons_cons]

def rest : List (Variable × ℤ) → Coeff
  | [p] => factor p
  | l => prod 1 (l.map factor)

theorem rest_of_length {l : List (Variable × ℤ)} (several : l.length ≠ 1) :
    rest l = prod 1 (l.map factor) ∧ Monomial.kindOf l = 2 := by
  obtain _ | ⟨p, _ | ⟨q, l⟩⟩ := l
  · exact ⟨rfl, rfl⟩
  · exact absurd rfl several
  · exact ⟨rfl, rfl⟩

theorem rank_factor (p : Variable × ℤ) :
    (factor p).rank.1 = if factorKind p = 2 then 100 else if factorKind p = 1 then 15 else 13 := by
  obtain ⟨v, n⟩ := p
  unfold factor wholePower factorKind
  by_cases one : n = 1
  · by_cases name : v.kind = 0 <;> simp [one, name, rank_read]
  · simp [one, rank_pow_read]

theorem cmp_factor_prod (p : Variable × ℤ) (fs : List Coeff) :
    cmp (factor p) (prod 1 fs) = compare (Monomial.kindOf [p]) 2 := by
  have ranks : cmp (factor p) (prod 1 fs) = cmpRank (factor p) (prod 1 fs) := by
    obtain ⟨v, n⟩ := p
    unfold factor wholePower
    split
    · rcases v with s | ⟨s, _ | i⟩ <;> rfl
    · rfl
  have product : (prod 1 fs).rank = (16, "") := rfl
  rw [ranks, cmpRank, rank_factor, product, Monomial.kindOf]
  rcases factorKind_cases p with own | own | own <;> rw [own] <;> rfl

theorem cmp_rest (l k : List (Variable × ℤ)) : cmp (rest l) (rest k) = Monomial.compareLists l k := by
  unfold Monomial.compareLists compareLex compareOn
  by_cases single : l.length = 1 <;> by_cases single' : k.length = 1
  · obtain ⟨p, rfl⟩ := length_eq_one_iff.mp single
    obtain ⟨q, rfl⟩ := length_eq_one_iff.mp single'
    show cmp (factor p) (factor q) = _
    rw [cmp_factor, List.compareLex_cons_cons, List.compareLex_nil_nil, then_eq, compareFactor, compareLex,
      compareOn, Monomial.kindOf, Monomial.kindOf]
    rcases factorKind_cases p with own | own | own <;> rcases factorKind_cases q with other | other | other <;>
      rw [own, other] <;> rfl
  · obtain ⟨p, rfl⟩ := length_eq_one_iff.mp single
    obtain ⟨product, kind⟩ := rest_of_length single'
    rw [product, kind, rest, cmp_factor_prod, Monomial.kindOf]
    rcases factorKind_cases p with own | own | own <;> rw [own] <;> rfl
  · obtain ⟨p, rfl⟩ := length_eq_one_iff.mp single'
    obtain ⟨product, kind⟩ := rest_of_length single
    rw [product, kind, rest, cmp_swap, cmp_factor_prod, Monomial.kindOf]
    rcases factorKind_cases p with own | own | own <;> rw [own] <;> rfl
  · obtain ⟨product, kind⟩ := rest_of_length single
    obtain ⟨product', kind'⟩ := rest_of_length single'
    have one : Scalar.cmp 1 1 = .eq := by simp [Scalar.cmp, Scalar.one_eq]
    have isOne : Scalar.isOne 1 = true := by simp [Scalar.one_eq]
    rw [product, kind, product', kind', cmp]
    simp [one, isOne, cmpList_factors]

end Coeff

end Bladewright
