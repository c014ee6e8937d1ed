import Bladewright.Host.Evaluation
import Bladewright.Proofs.Host.Parts
import Bladewright.Proofs.Outcome

/-!
Values that do not read a name. Code can hand functions around in tuples, mappings and records, and a function reads
the names of the code that calls it, so a value may read a name through any function it holds.
-/
namespace Bladewright.Host

open List Bladewright.Numeral Outcome

/-! ### Outcomes -/

/-- If a computation returns, then with a value that has a property. -/
abbrev Gives {α : Type} (P : α → Prop) (outcome : Except Fault α) : Prop := Meets (fun _ => True) P outcome

section

variable {α β : Type} {P : α → Prop} {Q : β → Prop}

@[simp] theorem gives_pure {a : α} : Gives P (pure a) ↔ P a := Iff.rfl

@[simp] theorem gives_ok {a : α} : Gives P (.ok a) ↔ P a := Iff.rfl

@[simp] theorem gives_throw {fault : Fault} : Gives P (throw fault) := trivial

variable {outcome : Except Fault α}

theorem gives_iff : Gives P outcome ↔ ∀ a, outcome = .ok a → P a := by
  cases outcome with
  | error => simp [Gives, Meets]
  | ok a => simp

@[simp] theorem gives_bind {f : α → Except Fault β} :
    Gives Q (outcome >>= f) ↔ ∀ a, outcome = .ok a → Gives Q (f a) := by
  cases outcome with
  | error => simp [Gives, Meets, bind, Except.bind]
  | ok a => simp [bind, Except.bind]

@[simp] theorem gives_map {f : α → β} : Gives Q (f <$> outcome) ↔ ∀ a, outcome = .ok a → Q (f a) := by
  cases outcome with
  | error => simp [Gives, Meets, Functor.map, Except.map]
  | ok a => simp [Functor.map, Except.map]

theorem Gives.imp {P' : α → Prop} (gives : Gives P outcome) (weaker : ∀ a, P a → P' a) : Gives P' outcome := by
  cases outcome with
  | error => trivial
  | ok a => exact weaker a gives

theorem Gives.filterM (p : α → Except Fault Bool) (xs : List α) : Gives (· ⊆ xs) (xs.filterM p) := by
  have kept (xs done : List α) : Gives (· ⊆ xs ++ done) (List.filterAuxM p xs done) := by
    induction xs generalizing done with
    | nil => simp [List.filterAuxM]
    | cons x xs ih =>
      simp only [List.filterAuxM, gives_bind]
      intro holds _
      refine (ih _).imp fun ys within y mem => ?_
      have := within mem
      cases holds <;> simp at this ⊢ <;> tauto
  rw [List.filterM, gives_bind]
  intro ys returned
  have within := gives_iff.mp (kept xs []) ys returned
  simpa using within

theorem Gives.foldlM {f : β → α → Except Fault β} {xs : List α} {b : β} (start : Q b)
    (step : ∀ b x, Q b → x ∈ xs → Gives Q (f b x)) : Gives Q (xs.foldlM f b) := by
  induction xs generalizing b with
  | nil => exact start
  | cons x xs ih =>
    rw [foldlM_cons]
    exact (step b x start mem_cons_self).bind fun b' kept =>
      ih kept fun b x kept mem => step b x kept (mem_cons_of_mem _ mem)

end

def Stmt.Avoids (name : String) (s : Stmt) : Prop := ∀ e ∈ s.expressions, ¬e.Mentions name

namespace Value

mutual

/-- No function that a value holds mentions a name. -/
@[simp] def Ignores (name : String) : Value → Prop
  | tuple es | list es | set es | iterator _ es | kvector _ _ es | record _ es => IgnoreAll name es
  | dict keys values => IgnoreAll name keys ∧ IgnoreAll name values
  | slice lower upper step => Ignores name lower ∧ Ignores name upper ∧ Ignores name step
  | kvectorType grade dimension => Ignores name grade ∧ Ignores name dimension
  | method receiver _ => Ignores name receiver
  | function _ _ _ defaultValues body _ takenValues =>
    (∀ s ∈ body, s.Avoids name) ∧ IgnoreAll name defaultValues ∧ IgnoreAll name takenValues
  | none | ellipsis | bool _ | int _ | float _ | complex .. | str _ | bytes _ | range .. | tensor _ | type _
  | routine _ => True

def IgnoreAll (name : String) : List Value → Prop
  | [] => True
  | e :: es => Ignores name e ∧ IgnoreAll name es

end

variable {name : String}

variable {es : List Value} {v a b index : Value}

@[simp] theorem ignoreAll_iff : IgnoreAll name es ↔ ∀ e ∈ es, e.Ignores name := by
  induction es with
  | nil => simp [IgnoreAll]
  | cons e es ih => rw [IgnoreAll, ih, forall_mem_cons]

/-! ### Operators -/

theorem ignores_integralPower (x : Floating) (n : Int) : Gives (Ignores name) (integralPower x n) := by
  unfold integralPower
  repeat' split
  all_goals simp

theorem ignores_complexPower (a b : ComplexFloating) : Gives (Ignores name) (complexPower a b) := by
  unfold complexPower
  repeat' split
  all_goals simp [ofComplex]

theorem ignores_complexOperator (op : BinaryOp) (a b : ComplexFloating) :
    Gives (Ignores name) (complexOperator op a b) := by
  unfold complexOperator
  repeat' split
  all_goals simp [ofComplex, ignores_complexPower]

theorem ignores_floatPower (x y : Floating) : Gives (Ignores name) (floatPower x y) := by
  unfold floatPower
  repeat' split
  all_goals simp [ignores_integralPower, ignores_complexPower]

theorem ignores_wholeOperator (op : BinaryOp) (a b : Int) : Gives (Ignores name) (wholeOperator op a b) := by
  unfold wholeOperator
  repeat' split
  all_goals simp [ignores_integralPower]

theorem ignores_floatOperator (op : BinaryOp) (x y : Floating) : Gives (Ignores name) (floatOperator op x y) := by
  unfold floatOperator
  repeat' split
  all_goals simp [ignores_floatPower]

theorem ignores_tensorOperator (op : BinaryOp) (a b : Tensor.Operand) :
    Gives (Ignores name) (tensorOperator op a b) := by
  unfold tensorOperator
  repeat' split
  all_goals simp

theorem mem_repeated {α : Type} {n : Int} {xs : List α} {x : α} (mem : x ∈ repeated n xs) : x ∈ xs := by
  obtain ⟨ys, copy, mem⟩ := mem_flatten.mp mem
  rwa [eq_of_mem_replicate copy] at mem

theorem ignores_times (n : Int) (own : v.Ignores name) : Gives (Ignores name) (sequenceOperator.times n v) := by
  unfold sequenceOperator.times
  split
  all_goals simp only [Ignores, ignoreAll_iff, gives_pure, gives_throw] at own ⊢
  all_goals exact fun e mem => own e (mem_repeated mem)

theorem ignores_sequenceOperator (op : BinaryOp) (left : a.Ignores name) (right : b.Ignores name) :
    Gives (Ignores name) (sequenceOperator op a b) := by
  unfold sequenceOperator
  split
  · simp
  · simp
  · simp only [Ignores, ignoreAll_iff, gives_pure, forall_mem_append] at left right ⊢
    exact ⟨left, right⟩
  · simp only [Ignores, ignoreAll_iff, gives_pure, forall_mem_append] at left right ⊢
    exact ⟨left, right⟩
  · split
    · exact ignores_times _ right
    · exact ignores_times _ left
    · exact gives_throw
  · exact gives_throw

theorem ignores_operate (op : BinaryOp) (left : a.Ignores name) (right : b.Ignores name) :
    Gives (Ignores name) (operate op a b) := by
  unfold operate
  repeat' split
  all_goals simp [ignores_tensorOperator, ignores_wholeOperator, ignores_floatOperator,
    ignores_complexOperator, ignores_sequenceOperator, left, right]

theorem ignores_operateUnary (op : UnaryOp) (a : Value) : Gives (Ignores name) (operateUnary op a) := by
  unfold operateUnary
  repeat' split
  all_goals simp

theorem ignores_size (v : Value) : Gives (Ignores name) v.size := by
  unfold size
  repeat' split
  all_goals simp

theorem ignores_rounded (v : Value) : Gives (Ignores name) v.rounded := by
  unfold rounded
  repeat' split
  all_goals simp

theorem ignores_roundedTo (places : Int) (v : Value) : Gives (Ignores name) (v.roundedTo places) := by
  unfold roundedTo
  repeat' split
  all_goals simp

theorem ignores_equalElements (a b : Value) : Gives (Ignores name) (equalElements a b) := by
  unfold equalElements
  split
  all_goals simp

theorem ignores_orderBy (p : Option Ordering → Bool) (a b : Value) : Gives (Ignores name) (orderBy p a b) := by
  unfold orderBy
  repeat' split
  all_goals simp

theorem ignores_compareWith (a b : Value) (op : CompareOp) : Gives (Ignores name) (compareWith a b op) := by
  unfold compareWith
  repeat' split
  all_goals simp [ignores_equalElements, ignores_orderBy]

/-! ### Parts -/

theorem ignores_tensorItems (t : Tensor) : Gives (∀ e ∈ ·, e.Ignores name) (tensorItems t) := by
  unfold tensorItems
  split
  all_goals simp

theorem ignores_items (own : v.Ignores name) : Gives (∀ e ∈ ·, e.Ignores name) v.items := by
  unfold items
  split
  all_goals simp_all [rangeItems, ignores_tensorItems]

theorem gives_select {α : Type} (xs : List α) (index : Value) :
    Gives (Sum.elim (· ∈ xs) (· ⊆ xs)) (select xs index) := by
  unfold select
  split
  · simp only [gives_bind]
    intro step _ lower _ upper _
    split
    · simp only [gives_pure, Sum.elim_inr]
      intro x mem
      obtain ⟨i, -, found⟩ := mem_filterMap.mp mem
      simpa using Array.mem_of_getElem? found
    · exact gives_throw
  · split
    · split
      · rename_i found
        obtain ⟨i, -, found⟩ := Option.bind_eq_some_iff.mp found
        exact mem_of_getElem? found
      · exact gives_throw
    · exact gives_throw

theorem ignores_choose {α : Type} {one : α → Value} {several : List α → Value} {xs : List α}
    (single : ∀ x ∈ xs, (one x).Ignores name) (part : ∀ ys, ys ⊆ xs → (several ys).Ignores name) (index : Value) :
    Gives (Ignores name) (choose one several xs index) := by
  refine (gives_select xs index).bind fun selected within => ?_
  cases selected with
  | inl x => exact single x within
  | inr ys => exact part ys within

theorem ignores_valueOf {keys values : List Value} (each : ∀ v ∈ values, v.Ignores name) (key : Value) :
    Gives (Ignores name) (valueOf keys values key) := by
  unfold valueOf
  split
  · refine (Gives.filterM _ _).bind fun found within => ?_
    split
    · exact each _ (of_mem_zip (within mem_cons_self)).2
    · exact gives_throw
  · exact gives_throw

theorem ignores_tensorItem (t : Tensor) (index : Value) : Gives (Ignores name) (tensorItem t index) := by
  unfold tensorItem
  split
  all_goals simp

theorem ignores_chosen (each : ∀ e ∈ es, e.Ignores name) {several : List Value → Value}
    (sequence : ∀ ys, (several ys).Ignores name ↔ ∀ e ∈ ys, e.Ignores name) (index : Value) :
    Gives (Ignores name) (choose (fun e => e) several es index) :=
  ignores_choose each (fun ys within => (sequence ys).mpr fun e mem => each e (within mem)) index

theorem ignores_item (own : v.Ignores name) (place : index.Ignores name) : Gives (Ignores name) (v.item index) := by
  unfold item
  split
  · exact ignores_choose (by simp) (by simp) index
  · exact ignores_choose (by simp) (by simp) index
  · exact ignores_chosen (ignoreAll_iff.mp own) (by simp) index
  · exact ignores_chosen (ignoreAll_iff.mp own) (by simp) index
  · exact ignores_chosen (ignoreAll_iff.mp own) (by simp) index
  · exact ignores_chosen (by simp [rangeItems]) (by simp) index
  · exact ignores_valueOf (ignoreAll_iff.mp own.2) index
  · exact ignores_tensorItem _ index
  · refine (ignores_items place).bind fun items each => ?_
    split
    · simpa using each
    · exact gives_throw
  · split
    · simp
    · exact gives_throw
  · exact gives_throw

theorem ignores_scalarComponent (own : v.Ignores name) : Gives (Ignores name) v.scalarComponent := by
  unfold scalarComponent
  repeat' split
  all_goals simp_all

theorem ignores_component (own : v.Ignores name) (place : index.Ignores name) :
    Gives (Ignores name) (v.component index) := by
  unfold component
  split
  · exact ignores_tensorItem _ _
  · exact ignores_item own place

theorem ignores_fieldOf? {part : Value} {field : String} (own : v.Ignores name) :
    v.fieldOf? field = some part → part.Ignores name := by
  unfold fieldOf?
  split
  · intro found
    obtain ⟨entry, read, rfl⟩ := Option.map_eq_some_iff.mp found
    exact ignoreAll_iff.mp own _ (of_mem_zip (mem_of_find?_eq_some read)).2
  on_goal 18 => split
  all_goals rintro ⟨⟩
  all_goals simp_all

theorem ignores_attributeOf (own : v.Ignores name) (field : String) : Gives (Ignores name) (v.attributeOf field) := by
  unfold attributeOf
  split
  · rename_i part found
    exact ignores_fieldOf? own found
  · split
    · exact own
    · exact gives_throw

/-! ### Methods -/

theorem ignores_ofElement (d : Dtype) (e : Element) : (ofElement d e).Ignores name := by
  unfold ofElement
  split
  all_goals simp

theorem ignores_nestedLists (d : Dtype) (shape : List Nat) (xs : List Element) :
    (nestedLists d shape xs).Ignores name := by
  induction shape generalizing xs with
  | nil =>
    unfold nestedLists
    split
    · exact ignores_ofElement d _
    · simp
  | cons n shape ih =>
    rw [nestedLists, Ignores, ignoreAll_iff, forall_mem_map]
    exact fun piece _ => ih piece

theorem ignores_placeOf (v : Value) (es : List Value) (k : Nat) : Gives (Ignores name) (placeOf v es k) := by
  induction es generalizing k with
  | nil => exact gives_throw
  | cons e es ih =>
    rw [placeOf, gives_bind]
    intro found _
    split
    · simp
    · exact ih (k + 1)

theorem ignores_stackComponents (v : Value) : Gives (Ignores name) (stackComponents v) := by
  simp [stackComponents]

theorem ignores_callMethod (own : v.Ignores name) (method : String) {args : List Value}
    (given : ∀ e ∈ args, e.Ignores name) : Gives (Ignores name) (v.callMethod method args) := by
  unfold callMethod
  split
  · exact own.1
  · exact own.2
  · rename_i keys values _
    simp only [Ignores, ignoreAll_iff] at own
    rw [gives_pure, Ignores, ignoreAll_iff, ← map_uncurry_zip_eq_zipWith, forall_mem_map]
    intro entry mem
    have parts := of_mem_zip mem
    simpa [Function.uncurry_def] using ⟨own.1 _ parts.1, own.2 _ parts.2⟩
  · split
    · refine (Gives.filterM _ _).bind fun found within => ?_
      split
      · exact ignoreAll_iff.mp own.2 _ (of_mem_zip (within mem_cons_self)).2
      · rename_i others _ _
        cases others with
        | nil => trivial
        | cons other _ => exact given other (by simp)
    · exact gives_throw
  all_goals try split
  all_goals simp [ignores_placeOf, ignores_stackComponents, ignores_ofElement, ignores_nestedLists]

theorem ignores_buildKVector (grade dimension : Value) {components : Value} (own : components.Ignores name) :
    Gives (Ignores name) (buildKVector grade dimension components) := by
  unfold buildKVector
  refine (ignores_items own).bind fun es each => ?_
  dsimp only
  repeat' split
  all_goals first
    | exact gives_throw
    | exact ignoreAll_iff.mpr each

/-! ### Sets and mappings -/

end Value

namespace SetOrder

variable {α : Type} {P : α → Prop}

def Table.Each (P : α → Prop) (t : Table α) : Prop := ∀ entry ∈ t.entries, P entry.2.2

variable {element : α} {t : Table α} {elements : List (Nat × α)}

theorem Table.each_place (each : t.Each P) (hash : Nat) (own : P element) : (t.place hash element).Each P := by
  intro entry mem
  rcases mem_cons.mp mem with rfl | mem
  · exact own
  · exact each entry mem

theorem Table.each_sorted (each : t.Each P) : ∀ entry ∈ t.sorted, P entry.2.2 :=
  fun entry mem => each entry (mem_mergeSort.mp mem)

theorem Table.each_replaced {entries : List (Nat × Nat × α)} (each : ∀ entry ∈ entries, P entry.2.2)
    (own : t.Each P) : (entries.foldl (fun grown (_, h, e) => grown.place h e) t).Each P := by
  induction entries generalizing t with
  | nil => exact own
  | cons entry entries ih =>
    rw [forall_mem_cons] at each
    exact ih each.2 (Table.each_place own _ each.1)

theorem Table.each_insert (each : t.Each P) (hash : Nat) (own : P element) : (t.insert hash element).Each P := by
  have placed := Table.each_place each hash own
  unfold Table.insert
  dsimp only
  split
  · exact placed
  · exact Table.each_replaced (Table.each_sorted placed) (by simp [Table.Each])

theorem Table.each_ofHashes (each : ∀ entry ∈ elements, P entry.2) : (Table.ofHashes elements).Each P := by
  have all (t : Table α) (own : t.Each P) : (elements.foldl (fun t entry => t.insert entry.1 entry.2) t).Each P := by
    induction elements generalizing t with
    | nil => exact own
    | cons entry entries ih =>
      rw [forall_mem_cons] at each
      exact ih each.2 _ (Table.each_insert own _ each.1)
  exact all {} (by simp [Table.Each])

theorem Table.each_copied (each : t.Each P) : t.copied.Each P := by
  have anew (last : Nat) := Table.each_replaced (Table.each_sorted each) (t := { last }) (by simp [Table.Each])
  unfold Table.copied
  dsimp only
  repeat' split
  all_goals first
    | exact each
    | exact anew _

theorem each_ofHashes (each : ∀ entry ∈ elements, P entry.2) (constant : Bool) :
    ∀ e ∈ ofHashes elements constant, P e := by
  have made := Table.each_ofHashes each
  unfold ofHashes
  simp only [forall_mem_map]
  split
  · refine Table.each_sorted (Table.each_copied (Table.each_ofHashes ?_))
    rw [forall_mem_map]
    exact Table.each_sorted made
  · exact Table.each_sorted made

end SetOrder

namespace Value

variable {name : String}

variable {es : List Value}

theorem ignores_listed (each : ∀ e ∈ es, e.Ignores name) (constant : Bool) :
    Gives (∀ e ∈ ·, e.Ignores name) (listed es constant) := by
  unfold listed
  have hashed : Gives (∀ entry ∈ ·, entry.2.Ignores name)
      (es.mapM fun e => return (wordOf ((← e.hash).getD 0), e)) := by
    refine Meets.mapM fun e mem => ?_
    simpa using fun _ _ => each e mem
  exact hashed.bind fun entries own => SetOrder.each_ofHashes own constant

theorem ignores_setOf (each : ∀ e ∈ es, e.Ignores name) (constant : Bool) :
    Gives (Ignores name) (setOf es constant) := by
  unfold setOf
  have distinct : Gives (∀ e ∈ ·, e.Ignores name) (es.foldlM (fun (done : List Value) e => do
      unless e.isKey do throw .typeError
      if ← done.anyM (same e ·) then return done else return done ++ [e]) []) := by
    refine Gives.foldlM (by simp) fun done e own mem => ?_
    split
    · simp only [gives_bind]
      intro found _
      split
      · exact own
      · exact forall_mem_append.mpr ⟨own, forall_mem_singleton.mpr (each e mem)⟩
    · exact gives_throw
  refine distinct.bind fun es each => (ignores_listed each constant).bind fun es each => ?_
  simpa using each

theorem ignores_mappingOf {entries : List (Value × Value)}
    (each : ∀ entry ∈ entries, entry.1.Ignores name ∧ entry.2.Ignores name) :
    Gives (Ignores name) (mappingOf entries) := by
  unfold mappingOf
  refine Meets.bind (P := fun done : List Value × List Value =>
    (∀ e ∈ done.1, e.Ignores name) ∧ ∀ e ∈ done.2, e.Ignores name) ?_ fun done own => ?_
  · refine Gives.foldlM (by simp) fun done entry own mem => ?_
    split
    · simp only [gives_bind]
      intro known _
      split
      · rw [gives_pure, ← map_uncurry_zip_eq_zipWith, forall_mem_map]
        refine ⟨own.1, fun pair listed => ?_⟩
        have old := own.2 _ (of_mem_zip listed).2
        have new := (each entry mem).2
        simp only [Function.uncurry_def]
        split
        · exact new
        · exact old
      · simp only [gives_pure, forall_mem_append, forall_mem_singleton]
        exact ⟨⟨own.1, (each entry mem).1⟩, own.2, (each entry mem).2⟩
    · exact gives_throw
  · simpa using own

/-! ### Numbers, rows and extremes -/

theorem ignores_toWhole (v : Value) : Gives (Ignores name) (toWhole v) := by
  unfold toWhole
  repeat' split
  all_goals simp

theorem ignores_toReal (v : Value) : Gives (Ignores name) (toReal v) := by
  unfold toReal
  repeat' split
  all_goals simp

theorem ignores_complexOf (a b : Value) : Gives (Ignores name) (complexOf a b) := by
  simp [complexOf]

theorem ignores_rangeOf (bounds : List Value) : Gives (Ignores name) (rangeOf bounds) := by
  unfold rangeOf
  rw [gives_bind]
  intro numbers _
  repeat' split
  all_goals simp

theorem ignores_zipRows {n : Nat} {lists : List (List Value)} (each : ∀ es ∈ lists, ∀ e ∈ es, e.Ignores name) :
    ∀ row ∈ zipRows n lists, ∀ e ∈ row, e.Ignores name := by
  induction n generalizing lists with
  | zero => simp [zipRows]
  | succ n ih =>
    unfold zipRows
    split
    · simp
    · rw [forall_mem_cons]
      constructor
      · intro e mem
        obtain ⟨es, listed, head⟩ := mem_filterMap.mp mem
        exact each es listed e (mem_of_mem_head? head)
      · refine ih (forall_mem_map.mpr fun es listed e mem => ?_)
        exact each es listed e (mem_of_mem_tail mem)

theorem ignores_rowsOf {vs : List Value} (each : ∀ v ∈ vs, v.Ignores name) :
    Gives (∀ row ∈ ·, ∀ e ∈ row, e.Ignores name) (rowsOf vs) :=
  Meets.bind (Meets.mapM fun v mem => ignores_items (each v mem)) fun _ own => ignores_zipRows own

theorem ignores_divMod {a b : Value} (left : a.Ignores name) (right : b.Ignores name) :
    Gives (Ignores name) (divMod a b) := by
  refine (ignores_operate _ left right).bind fun quotient first => (ignores_operate _ left right).bind fun _ second => ?_
  simp [first, second]

theorem ignores_sumFrom {start : Value} (first : start.Ignores name)
    (each : ∀ e ∈ es, e.Ignores name) : Gives (Ignores name) (sumFrom start es) :=
  Gives.foldlM first fun _ e own mem => ignores_operate .add own (each e mem)

theorem ignores_attributeOr {v other : Value} (own : v.Ignores name) (field : String) (spare : other.Ignores name) :
    Gives (Ignores name) (attributeOr v field other) := by
  unfold attributeOr
  split
  · exact spare
  · exact ignores_attributeOf own field

theorem ignores_characterOf (code : Int) : Gives (Ignores name) (characterOf code) := by
  unfold characterOf
  split
  all_goals simp

end Value

end Bladewright.Host
