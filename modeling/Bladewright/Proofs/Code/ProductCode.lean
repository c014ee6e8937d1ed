import Bladewright.Proofs.Code.InputProduct
import Bladewright.Proofs.Host.Writable

/-!
The code of the product of two inputs of all grades.
-/
namespace Bladewright

open Host List

namespace Coeff

/-! ### Reads of components -/

def readCode (e : Expr) (i : Nat) : Expr := .apply "getcomponent" [e, .int i]

theorem nesting_readCode (e : Expr) (i : Nat) : (readCode e i).nesting = e.nesting := by
  simp [readCode, Expr.apply, Expr.int, Expr.nesting, nestings, Expr.height]

variable {i : Nat} {α : Type} {source name : String} {e : Coeff}

theorem getElem?_eq_some_getD [OfNat α 0] {xs : List α} (inside : i < xs.length) : xs[i]? = some (xs.getD i 0) := by
  simp [List.getD, inside]

def componentValue {α : Type} [OfNat α 0] (inputs : String → List α) : Coeff → α
  | app _ [sym source, num (.exact q)] => (inputs source).getD q.num.toNat 0
  | _ => 0

theorem componentValue_componentAt [OfNat α 0] (inputs : String → List α) (source : String) (i : Nat) :
    componentValue inputs (componentAt source i) = (inputs source).getD i 0 := by
  show (inputs source).getD ((i : ℤ) : ℚ).num.toNat 0 = _
  rw [Rat.num_intCast, Int.toNat_natCast]

theorem readsAs_componentAt [CommRing α] {V : Nat → Expr → α → Prop} {inputs : String → List α}
    {e : Expr} (read : Expr.read source = .ok e) (value : V 0 (readCode e i) ((inputs source).getD i 0)) :
    ReadsAs V (componentValue inputs) (componentAt source i) := by
  intro depth
  rw [componentValue_componentAt]
  exact ⟨readCode e i, Code.emitDeep_componentRead read depth i, value⟩

/-! ### The host inputs of products -/

theorem mem_symbols_componentAt (mem : name ∈ (componentAt source i).symbols) : name = source := by
  obtain ⟨x, listed, mem⟩ := mem_symbols_app.mp mem
  simp only [mem_cons, not_mem_nil, or_false] at listed
  rcases listed with rfl | rfl
  · simpa [symbols] using mem
  · have constant : (ofInt i).symbols = [] := by rw [ofInt, symbols]
    rw [constant] at mem
    cases mem

theorem IsSigned.mem_symbols {sign : ℤ} {x y : Coeff} (signed : IsSigned sign x y e)
    (mem : name ∈ e.symbols) : name ∈ x.symbols ∨ name ∈ y.symbols := by
  obtain ⟨fs, perm, rfl⟩ := signed.monomial
  obtain ⟨f, listed, mem⟩ := mem_symbols_prod.mp mem
  have listed := perm.mem_iff.mp listed
  simp only [mem_cons, not_mem_nil, or_false] at listed
  rcases listed with rfl | rfl
  exacts [.inl mem, .inr mem]

theorem IsTotal.mem_symbols {es : List Coeff} (total : IsTotal es e)
    (mem : name ∈ e.symbols) : ∃ m ∈ es, name ∈ m.symbols := by
  rcases total with rfl | ⟨-, ts, perm, rfl⟩
  · exact ⟨e, mem_singleton_self e, mem⟩
  · obtain ⟨t, listed, mem⟩ := mem_symbols_sum.mp mem
    exact ⟨t, perm.mem_iff.mp listed, mem⟩

end Coeff

open Coeff Evaluation

theorem symbols_inputProduct {s : Signature} (positive : 1 ≤ s.dimension) {left right : String}
    (differ : left ≠ right) {blade : Nat} (small : blade < 2 ^ s.dimension) {name : String}
    (mem : name ∈ ((inputProduct s left right).terms.coeff blade).symbols) : name = left ∨ name = right := by
  have total := isTotal_multiply differ (nodup_places _) (nodup_places _) (assigns_inputTerms positive left)
    (assigns_inputTerms positive right) (mem_blades_inputProduct left right small)
  obtain ⟨m, listed, mem⟩ := total.mem_symbols mem
  obtain ⟨p, paired, rfl⟩ := mem_map.mp listed
  exact ((isSigned_pairProduct differ paired).mem_symbols mem).imp mem_symbols_componentAt mem_symbols_componentAt

/-! ### The code of the product -/

namespace Terms

def ofComponents {α : Type} (n : Nat) (a : List α) : Terms α := ofList ((everyBlade n).zip a)

theorem entries_ofComponents {α : Type} {n : Nat} {a : List α} (complete : a.length = 2 ^ n) :
    (ofComponents n a).entries = (everyBlade n).zip a := by
  refine entries_ofList ?_
  rw [map_fst_zip (by rw [length_everyBlade, complete])]
  exact nodup_everyBlade n

def productComponents {α : Type} [CommRing α] (s : Signature) (a b : List α) : List α :=
  (everyBlade s.dimension).map ((ofComponents s.dimension a).geometricProduct s (ofComponents s.dimension b)).coeff

end Terms

namespace Code

/-- In every meaning of code in which arithmetic has its meaning in a ring and the reads of two objects stand for two
lists of components, the codes stand for the components of their product. -/
def ComputesProduct (s : Signature) (left right : Expr) (codes : List Expr) : Prop :=
  ∀ {α : Type} [CommRing α] {V : Expr → α → Prop}, Interprets (fun _ => V) → ∀ {a b : List α}, a.length = s.size →
    b.length = s.size → (∀ i < s.size, V (readCode left i) (a.getD i 0)) →
      (∀ i < s.size, V (readCode right i) (b.getD i 0)) → List.Forall₂ V codes (Terms.productComponents s a b)

/-- How code is made is one more meaning of it, in which values play no part. -/
theorem interprets_made : Interprets (α := ℤ) fun k c _ => c.IsArithmetic ∧ c.nesting ≤ k where
  deeper made more := made.imp_right more.trans'
  minus made := ⟨.unary _ made.1, Nat.succ_le_succ made.2⟩
  add made made' := ⟨.binary _ made.1 made'.1, Nat.succ_le_succ (Nat.max_le.mpr ⟨made.2, made'.2⟩)⟩
  sub made made' := ⟨.binary _ made.1 made'.1, Nat.succ_le_succ (Nat.max_le.mpr ⟨made.2, made'.2⟩)⟩
  mul made made' := ⟨.binary _ made.1 made'.1, Nat.succ_le_succ (Nat.max_le.mpr ⟨made.2, made'.2⟩)⟩

variable {α : Type} {V : Expr → α → Prop}

theorem emitAll_computes [CommRing α] {blades : List Nat} {coeff : Nat → Coeff}
    {value : Nat → α} (each : ∀ blade ∈ blades, Computes V (coeff blade).emit (value blade)) :
    ∃ codes, emitAll (blades.map coeff) = .ok codes ∧ List.Forall₂ V codes (blades.map value) := by
  induction blades with
  | nil => exact ⟨[], rfl, .nil⟩
  | cons blade blades ih =>
    rw [forall_mem_cons] at each
    obtain ⟨code, emitted, first⟩ := each.1
    obtain ⟨codes, emitted', rest⟩ := ih each.2
    refine ⟨code :: codes, ?_, .cons first rest⟩
    rw [emitAll] at emitted' ⊢
    rw [map_cons, mapM_cons, emitted, emitted']
    rfl

section

variable {s : Signature} (positive : 1 ≤ s.dimension) {left right : String} (differ : left ≠ right) {e e' : Expr}
  (read : Expr.read left = .ok e) (read' : Expr.read right = .ok e')
include positive differ read read'

theorem emitAll_inputProduct [CommRing α] {V : Nat → Expr → α → Prop} (interprets : Interprets V) {a b : List α}
    (complete : a.length = s.size) (complete' : b.length = s.size) (reads : ∀ i < s.size, V 0 (readCode e i) (a.getD i 0))
    (reads' : ∀ i < s.size, V 0 (readCode e' i) (b.getD i 0)) :
    ∃ codes, emitAll ((everyBlade s.dimension).map (inputProduct s left right).terms.coeff) = .ok codes ∧
      List.Forall₂ (V (3 + s.size)) codes (Terms.productComponents s a b) := by
  let inputs : String → List α := fun source => if source = left then a else b
  have first : inputs left = a := if_pos rfl
  have second : inputs right = b := if_neg differ.symm
  have reading : ∀ i < s.size, ReadsAs V (componentValue inputs) (componentAt left i) ∧
      componentValue inputs (componentAt left i) = a.getD i 0 := fun i inside =>
    ⟨readsAs_componentAt read (first ▸ reads i inside), first ▸ componentValue_componentAt inputs left i⟩
  have reading' : ∀ i < s.size, ReadsAs V (componentValue inputs) (componentAt right i) ∧
      componentValue inputs (componentAt right i) = b.getD i 0 := fun i inside =>
    ⟨readsAs_componentAt read' (second ▸ reads' i inside), second ▸ componentValue_componentAt inputs right i⟩
  exact emitAll_computes (computes_inputProduct positive interprets differ complete complete'
    (Terms.entries_ofComponents complete) (Terms.entries_ofComponents complete') reading reading')

theorem exists_codes (small : s.dimension ≤ 12) (plain : e.IsArithmetic) (plain' : e'.IsArithmetic)
    (flat : e.nesting = 0) (flat' : e'.nesting = 0) :
    ∃ codes, emitAll ((everyBlade s.dimension).map (inputProduct s left right).terms.coeff) = .ok codes ∧
      (∀ c ∈ codes, c.IsArithmetic ∧ c.nesting ≤ 3 + s.size) ∧ ComputesProduct s e e' codes := by
  have reads {e : Expr} (plain : e.IsArithmetic) (flat : e.nesting = 0) :
      ∀ i < s.size, (readCode e i).IsArithmetic ∧ (readCode e i).nesting ≤ 0 := by
    intro i inside
    have bound : s.size ≤ 4096 := Nat.pow_le_pow_right Nat.two_pos small
    have place : (Expr.int i).IsArithmetic := .int (Expr.isWritable_place (by omega))
    exact ⟨.apply _ (by simpa using ⟨plain, place⟩), (nesting_readCode e i).trans flat |>.le⟩
  have length : (List.replicate s.size (0 : ℤ)).length = s.size := length_replicate
  obtain ⟨codes, emitted, made⟩ := emitAll_inputProduct positive differ read read' interprets_made length length
    (reads plain flat) (reads plain' flat')
  refine ⟨codes, emitted, fun c mem => ?_, ?_⟩
  · exact ((forall₂_and_left (R := fun _ _ => True) _ _).mp (made.imp fun _ _ h => ⟨h, trivial⟩)).1 c mem
  · intro α _ V interprets a b complete complete' reads reads'
    obtain ⟨codes', emitted', computes⟩ :=
      emitAll_inputProduct positive differ read read' interprets complete complete' reads reads'
    rw [emitted] at emitted'
    cases emitted'
    exact computes

omit read read' in
/-- The codes of a product of `2 ^ n` components are nested as deep as there are components. -/
theorem size_le_nestings {codes : List Expr}
    (emitted : emitAll ((everyBlade s.dimension).map (inputProduct s left right).terms.coeff) = .ok codes) :
    s.size ≤ nestings codes + 1 := by
  have top : 2 ^ s.dimension - 1 ∈ everyBlade s.dimension :=
    mem_everyBlade.mpr (Nat.sub_lt (Nat.two_pow_pos _) Nat.one_pos)
  obtain ⟨c, mem, last⟩ := Outcome.exists_of_mapM emitted (mem_map_of_mem top)
  exact (size_le_nesting positive differ (Outcome.of_mapError last)).trans (Nat.succ_le_succ (nestings_le_iff.mp le_rfl c mem))

end

end Code

end Bladewright
