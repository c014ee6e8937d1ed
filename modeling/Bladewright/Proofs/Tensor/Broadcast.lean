import Bladewright.Tensor.Basic
import Mathlib.Algebra.BigOperators.Group.List.Basic
import Mathlib.Data.List.Forall2

/-!
Shapes and data of tensors. Rows that follow each other can be cut apart again (`pieces_flatten`), and the columns of
a table are read off place by place (`columns_eq`).
-/
namespace Bladewright.Tensor

open List Bladewright.Host

variable {α β : Type}

theorem count_eq_prod (shape : List Nat) : count shape = shape.prod := prod_eq_foldl.symm

/-! ### Rows and columns -/

theorem flatten_pieces {size n : Nat} {xs : List α} (full : xs.length = n * size) : (pieces size n xs).flatten = xs := by
  induction n generalizing xs with
  | zero => simpa [pieces, eq_comm] using full
  | succ n ih =>
    rw [pieces, flatten_cons, ih (by rw [length_drop, full, Nat.succ_mul]; omega), take_append_drop]

theorem pieces_flatten {size : Nat} {rows : List (List α)} (each : ∀ row ∈ rows, row.length = size) :
    pieces size rows.length rows.flatten = rows := by
  induction rows with
  | nil => rfl
  | cons row rows ih =>
    rw [forall_mem_cons] at each
    rw [length_cons, pieces, flatten_cons, ← each.1, take_left, drop_left, each.1, ih each.2]

theorem length_pieces (size n : Nat) (xs : List α) : (pieces size n xs).length = n := by
  induction n generalizing xs with
  | zero => rfl
  | succ n ih => rw [pieces, length_cons, ih]

theorem length_of_mem_pieces {size n : Nat} {xs : List α} (full : xs.length = n * size) :
    ∀ row ∈ pieces size n xs, row.length = size := by
  induction n generalizing xs with
  | zero => simp [pieces]
  | succ n ih =>
    rw [Nat.succ_mul] at full
    rw [pieces, forall_mem_cons]
    exact ⟨by rw [length_take]; omega, ih (by rw [length_drop]; omega)⟩

theorem getElem?_flatten {size : Nat} {rows : List (List α)} (each : ∀ row ∈ rows, row.length = size) (i : Nat) {o : Nat}
    (inside : o < size) : rows.flatten[i * size + o]? = (rows[i]?).bind (·[o]?) := by
  induction rows generalizing i with
  | nil => rfl
  | cons row rows ih =>
    rw [forall_mem_cons] at each
    rw [flatten_cons]
    cases i with
    | zero =>
      rw [Nat.zero_mul, Nat.zero_add, getElem?_append_left (each.1 ▸ inside)]
      rfl
    | succ i =>
      rw [getElem?_append_right (by rw [each.1, Nat.succ_mul]; omega), getElem?_cons_succ, ← ih each.2 i, each.1,
        Nat.succ_mul, show i * size + size + o - size = i * size + o by omega]

theorem columns_eq (n : Nat) (rows : List (List α)) :
    columns n rows = (List.range n).map fun i => rows.filterMap (·[i]?) := by
  induction n generalizing rows with
  | zero => rfl
  | succ n ih =>
    rw [columns, ih, range_succ_eq_map, map_cons, map_map]
    simp [filterMap_map, Function.comp_def, head?_eq_getElem?]

theorem map_range_getD (f : α → β) (z : α) (xs : List α) :
    ((List.range xs.length).map fun i => f ((xs[i]?).getD z)) = xs.map f := by
  refine ext_getElem (by simp) fun i inside _ => ?_
  rw [length_map, length_range] at inside
  simp [inside]

theorem columns_of_length {n : Nat} {rows : List (List α)} (each : ∀ row ∈ rows, row.length = n) (z : α) :
    columns n rows = (List.range n).map fun i => rows.map fun row => (row[i]?).getD z := by
  rw [columns_eq]
  refine map_congr_left fun i inside => filterMap_eq_map_iff_forall_eq_some.mpr fun row mem => ?_
  rw [getElem?_eq_getElem (each row mem ▸ mem_range.mp inside), Option.getD_some]

theorem rows_eq (d : Dtype) (shape : List Nat) (size : Nat) (xs : List Element) :
    rows ⟨d, shape ++ [size], xs⟩ = pieces size (count shape) xs := by
  simp [rows, count_eq_prod, prod_reverse]

/-! ### Stretching -/

/-- An axis keeps its extent, or is repeated if its extent is one. -/
def Stretches (source target : Nat) : Prop := source = target ∨ source = 1

theorem length_stretch {target source : List Nat} (fits : List.Forall₂ Stretches source target) {xs : List α}
    (full : xs.length = count source) : (stretch target source xs).length = count target := by
  induction fits generalizing xs with
  | nil => exact full
  | @cons s t source target axis _ ih =>
    rw [count_eq_prod, prod_cons, ← count_eq_prod] at full ⊢
    rw [stretch]
    split
    · rename_i same
      have each : ∀ row ∈ pieces (count source) s xs, (stretch target source row).length = count target :=
        fun row mem => ih (length_of_mem_pieces full row mem)
      rw [length_flatMap, map_congr_left each, map_const', sum_replicate_nat, length_pieces,
        same]
    · rename_i differ
      rw [axis.resolve_left differ, one_mul] at full
      rw [length_flatten, map_replicate, sum_replicate_nat, ih full]

theorem stretch_self {shape : List Nat} {xs : List α} (full : xs.length = count shape) : stretch shape shape xs = xs := by
  induction shape generalizing xs with
  | nil => rfl
  | cons extent shape ih =>
    rw [count_eq_prod, prod_cons, ← count_eq_prod] at full
    rw [stretch, if_pos rfl, flatMap_def, map_congr_left fun row mem =>
      ih (length_of_mem_pieces full row mem), map_id', flatten_pieces full]

/-! ### Places -/

/-- The number of a place in row-major order. -/
def offset : List Nat → List Nat → Nat
  | _ :: shape, i :: index => i * count shape + offset shape index
  | _, _ => 0

/-- A place on axes of which some have extent one and are repeated. -/
def clip (source index : List Nat) : List Nat := List.zipWith (fun extent i => if extent = 1 then 0 else i) source index

theorem offset_clip_cons (extent i : Nat) (source index : List Nat) :
    offset (extent :: source) (clip (extent :: source) (i :: index)) =
      (if extent = 1 then 0 else i) * count source + offset source (clip source index) := rfl

theorem offset_lt {shape index : List Nat} (inside : List.Forall₂ (· < ·) index shape) :
    offset shape index < count shape := by
  induction inside with
  | nil => exact Nat.one_pos
  | @cons i extent index shape first _ ih =>
    calc i * count shape + offset shape index
      _ < i * count shape + count shape := Nat.add_lt_add_left ih _
      _ = (i + 1) * count shape := (Nat.succ_mul ..).symm
      _ ≤ extent * count shape := Nat.mul_le_mul_right _ first
      _ = count (extent :: shape) := by rw [count_eq_prod, count_eq_prod, prod_cons]

theorem clip_lt {source target index : List Nat} (fits : List.Forall₂ Stretches source target)
    (inside : List.Forall₂ (· < ·) index target) : List.Forall₂ (· < ·) (clip source index) source := by
  induction fits generalizing index with
  | nil =>
    cases inside
    exact .nil
  | @cons s t source target axis _ ih =>
    cases inside with
    | cons first rest =>
      refine .cons ?_ (ih rest)
      dsimp only
      split
      · omega
      · rename_i several
        exact (axis.resolve_right several).symm ▸ first

/-- Data that are stretched have at a place what stood at the place with zero on the repeated axes. -/
theorem getElem?_stretch {target source index : List Nat} (fits : List.Forall₂ Stretches source target)
    (inside : List.Forall₂ (· < ·) index target) {xs : List α} (full : xs.length = count source) :
    (stretch target source xs)[offset target index]? = xs[offset source (clip source index)]? := by
  induction fits generalizing index xs with
  | nil =>
    cases inside
    rfl
  | @cons s t source target axis fits ih =>
    cases inside with
    | @cons i _ index _ first rest =>
      rw [count_eq_prod, prod_cons, ← count_eq_prod] at full
      have own := offset_lt rest
      have clipped := offset_lt (clip_lt fits rest)
      have whole := length_of_mem_pieces full
      rw [stretch]
      split
      · rename_i same
        -- an axis that keeps its extent is not clipped, since a place on an axis of extent one is zero anyway
        have place : (if s = 1 then 0 else i) = i := by
          split <;> omega
        have each : ∀ row ∈ (pieces (count source) s xs).map (stretch target source), row.length = count target :=
          forall_mem_map.mpr fun row mem => length_stretch fits (whole row mem)
        calc ((pieces (count source) s xs).flatMap (stretch target source))[i * count target + offset target index]?
          _ = ((pieces (count source) s xs)[i]?).bind fun row => (stretch target source row)[offset target index]? := by
            rw [flatMap_def, getElem?_flatten each i own, getElem?_map, Option.bind_map]
            rfl
          _ = ((pieces (count source) s xs)[i]?).bind (·[offset source (clip source index)]?) :=
            Option.bind_congr fun row found => ih rest (whole row (mem_of_getElem? found))
          _ = xs[offset (s :: source) (clip (s :: source) (i :: index))]? := by
            rw [← getElem?_flatten whole i clipped, flatten_pieces full, offset_clip_cons, place]
      · rename_i differ
        obtain rfl := axis.resolve_left differ
        rw [one_mul] at full
        have each : ∀ row ∈ List.replicate t (stretch target source xs), row.length = count target := by
          intro row mem
          rw [eq_of_mem_replicate mem, length_stretch fits full]
        calc (List.replicate t (stretch target source xs)).flatten[i * count target + offset target index]?
          _ = (stretch target source xs)[offset target index]? := by
            rw [getElem?_flatten each i own, getElem?_replicate_of_lt first, Option.bind_some]
          _ = xs[offset source (clip source index)]? := ih rest full
          _ = xs[offset (1 :: source) (clip (1 :: source) (i :: index))]? := by
            rw [offset_clip_cons, if_pos rfl, Nat.zero_mul, Nat.zero_add]

/-! ### Common shapes -/

/-- A shape can be stretched to another one; both are given from the last axis on. -/
def Fits : List Nat → List Nat → Prop
  | [], _ => True
  | _ :: _, [] => False
  | x :: a, y :: b => Stretches x y ∧ Fits a b

theorem fits_refl (a : List Nat) : Fits a a := by
  induction a with
  | nil => trivial
  | cons x a ih => exact ⟨.inl rfl, ih⟩

theorem Fits.trans {a b c : List Nat} (first : Fits a b) (second : Fits b c) : Fits a c := by
  induction a generalizing b c with
  | nil => trivial
  | cons x a ih =>
    cases b with
    | nil => exact first.elim
    | cons y b =>
      cases c with
      | nil => exact second.elim
      | cons z c =>
        refine ⟨?_, ih first.2 second.2⟩
        rcases first.1 with rfl | one
        · exact second.1
        · exact .inr one

theorem Fits.padded {a b : List Nat} (fits : Fits a b) :
    List.Forall₂ Stretches (a ++ List.replicate (b.length - a.length) 1) b := by
  induction b generalizing a with
  | nil =>
    cases a with
    | nil => exact .nil
    | cons => exact fits.elim
  | cons y b ih =>
    cases a with
    | nil => exact .cons (.inr rfl) (ih (a := []) trivial)
    | cons x a => simpa using List.Forall₂.cons fits.1 (ih fits.2)

theorem commonReversed?_cons {x y : Nat} {a b r : List Nat} :
    commonReversed? (x :: a) (y :: b) = some r ↔ ∃ e r', r = e :: r' ∧ commonReversed? a b = some r' ∧
      Stretches x e ∧ Stretches y e ∧ (e = x ∨ e = y) := by
  rw [commonReversed?]
  cases commonReversed? a b with
  | none => split_ifs <;> simp
  | some rest =>
    unfold Stretches
    split_ifs <;> simp <;> grind

theorem isSome_commonReversed?_cons {x y : Nat} {a b : List Nat} :
    (commonReversed? (x :: a) (y :: b)).isSome ↔ (x = y ∨ x = 1 ∨ y = 1) ∧ (commonReversed? a b).isSome := by
  rw [commonReversed?]
  cases commonReversed? a b with
  | none => split_ifs <;> simp
  | some rest => split_ifs <;> simp_all

theorem fits_commonReversed? {a b r : List Nat} (common : commonReversed? a b = some r) : Fits a r ∧ Fits b r := by
  induction a generalizing b r with
  | nil =>
    cases common
    exact ⟨trivial, fits_refl _⟩
  | cons x a ih =>
    cases b with
    | nil =>
      cases common
      exact ⟨fits_refl _, trivial⟩
    | cons y b =>
      obtain ⟨e, r, rfl, rest, left, right, -⟩ := commonReversed?_cons.mp common
      exact ⟨⟨left, (ih rest).1⟩, right, (ih rest).2⟩

theorem isSome_commonReversed?_of_common {a b c r : List Nat} (common : commonReversed? a b = some r)
    (left : (commonReversed? a c).isSome) (right : (commonReversed? b c).isSome) : (commonReversed? r c).isSome := by
  induction a generalizing b c r with
  | nil =>
    cases common
    exact right
  | cons x a ih =>
    cases b with
    | nil =>
      cases common
      exact left
    | cons y b =>
      obtain ⟨e, r, rfl, rest, -, -, extent⟩ := commonReversed?_cons.mp common
      cases c with
      | nil => rfl
      | cons z c =>
        rw [isSome_commonReversed?_cons] at left right ⊢
        refine ⟨?_, ih rest left.2 right.2⟩
        rcases extent with rfl | rfl
        · exact left.1
        · exact right.1

/-- The data of a shape stretched to another shape, to which it can be padded in front. -/
def broadcast (shape source : List Nat) (xs : List α) : List α :=
  stretch shape (List.replicate (shape.length - source.length) 1 ++ source) xs

theorem broadcast_self {shape : List Nat} {xs : List α} (full : xs.length = count shape) :
    broadcast shape shape xs = xs := by
  rw [broadcast, Nat.sub_self]
  exact stretch_self full

theorem broadcastTo_self {d : Dtype} {shape : List Nat} {xs : List Element} (full : xs.length = count shape) :
    broadcastTo shape ⟨d, shape, xs⟩ = ⟨d, shape, xs⟩ :=
  congrArg (Tensor.mk d shape) (broadcast_self full)

theorem padded_fits {shape source : List Nat} (fits : Fits source.reverse shape.reverse) :
    List.Forall₂ Stretches (List.replicate (shape.length - source.length) 1 ++ source) shape := by
  have padded := rel_reverse fits.padded
  rwa [reverse_append, reverse_reverse, reverse_reverse, reverse_replicate, length_reverse,
    length_reverse] at padded

theorem count_padded (k : Nat) (source : List Nat) : count (List.replicate k 1 ++ source) = count source := by
  rw [count_eq_prod, count_eq_prod, prod_append, prod_replicate, one_pow, one_mul]

theorem length_broadcast {shape source : List Nat} (fits : Fits source.reverse shape.reverse) {xs : List α}
    (full : xs.length = count source) : (broadcast shape source xs).length = count shape :=
  length_stretch (padded_fits fits) (by rw [full, count_padded])

/-- The place of which the data are broadcast to a place: without new axes in front, and zero on repeated ones. -/
def aligned (source index : List Nat) : List Nat := clip source (index.drop (index.length - source.length))

theorem offset_padded (k : Nat) (source index : List Nat) :
    offset (List.replicate k 1 ++ source) (clip (List.replicate k 1 ++ source) index) =
      offset source (clip source (index.drop k)) := by
  induction k generalizing index with
  | zero => rfl
  | succ k ih =>
    cases index with
    | nil => simp [clip, offset]
    | cons i index =>
      rw [drop_succ_cons, ← ih, replicate_succ, cons_append, offset_clip_cons, if_pos rfl, Nat.zero_mul,
        Nat.zero_add]

section

variable {shape source index : List Nat} (fits : Fits source.reverse shape.reverse)
  (inside : List.Forall₂ (· < ·) index shape)
include fits inside

theorem offset_aligned_lt : offset source (aligned source index) < count source := by
  have padded := offset_lt (clip_lt (padded_fits fits) inside)
  rwa [offset_padded, count_padded, ← inside.length_eq] at padded

theorem getElem?_broadcast {xs : List α} (full : xs.length = count source) :
    (broadcast shape source xs)[offset shape index]? = xs[offset source (aligned source index)]? := by
  rw [broadcast, getElem?_stretch (padded_fits fits) inside (by rw [full, count_padded]), offset_padded, aligned,
    inside.length_eq]

end

/-- Taking the common shape step by step succeeds if all shapes are compatible, and each of them fits in the end. -/
theorem foldlM_commonShape? {step : List Nat → Tensor → Except Fault (List Nat)}
    (common : ∀ shape t r, commonShape? shape t.shape = some r → step shape t = .ok r) {ts : List Tensor}
    {start : List Nat} (first : ∀ t ∈ ts, (commonShape? start t.shape).isSome)
    (compatible : ∀ t ∈ ts, ∀ u ∈ ts, (commonShape? t.shape u.shape).isSome) :
    ∃ shape, ts.foldlM step start = .ok shape ∧ Fits start.reverse shape.reverse ∧
      ∀ t ∈ ts, Fits t.shape.reverse shape.reverse := by
  induction ts generalizing start with
  | nil => exact ⟨start, rfl, fits_refl _, by simp⟩
  | cons t ts ih =>
    rw [forall_mem_cons] at first
    obtain ⟨r, joined⟩ := Option.isSome_iff_exists.mp first.1
    obtain ⟨reversed, stepped, rfl⟩ := Option.map_eq_some_iff.mp joined
    have inner : ∀ u ∈ ts, (commonShape? reversed.reverse u.shape).isSome := by
      intro u mem
      have own := first.2 u mem
      have other := compatible t mem_cons_self u (mem_cons_of_mem _ mem)
      rw [commonShape?, Option.isSome_map] at own other ⊢
      rw [reverse_reverse]
      exact isSome_commonReversed?_of_common stepped own other
    obtain ⟨shape, folded, fits, each⟩ := ih inner fun u mem w other =>
      compatible u (mem_cons_of_mem _ mem) w (mem_cons_of_mem _ other)
    rw [reverse_reverse] at fits
    obtain ⟨left, right⟩ := fits_commonReversed? stepped
    refine ⟨shape, ?_, left.trans fits, forall_mem_cons.mpr ⟨right.trans fits, each⟩⟩
    rw [foldlM_cons, common start t _ joined]
    exact folded

theorem sharedShape_ok {ts : List Tensor} (compatible : ∀ t ∈ ts, ∀ u ∈ ts, (commonShape? t.shape u.shape).isSome) :
    ∃ shape, sharedShape ts = .ok shape ∧ ∀ t ∈ ts, Fits t.shape.reverse shape.reverse := by
  have folded : ∃ shape, sharedShape ts = .ok shape ∧ Fits [] shape.reverse ∧
      ∀ t ∈ ts, Fits t.shape.reverse shape.reverse := by
    refine foldlM_commonShape? (fun shape t r joined => ?_) (fun t _ => rfl) compatible
    simp only [joined]
    rfl
  obtain ⟨shape, shared, -, each⟩ := folded
  exact ⟨shape, shared, each⟩

theorem commonShape?_self (shape : List Nat) : commonShape? shape shape = some shape := by
  have reversed (a : List Nat) : commonReversed? a a = some a := by
    induction a with
    | nil => rfl
    | cons x a ih => simp [commonReversed?, ih]
  rw [commonShape?, reversed, Option.map_some, reverse_reverse]

theorem foldlM_of_same {step : List Nat → Tensor → Except Fault (List Nat)} {shape : List Nat}
    (own : ∀ t, t.shape = shape → step shape t = .ok shape) {ts : List Tensor} (same : ∀ t ∈ ts, t.shape = shape) :
    ts.foldlM step shape = .ok shape := by
  induction ts with
  | nil => rfl
  | cons t ts ih =>
    rw [forall_mem_cons] at same
    rw [foldlM_cons, own t same.1]
    exact ih same.2

theorem sharedShape_same {ts : List Tensor} (nonempty : ts ≠ []) {shape : List Nat} (same : ∀ t ∈ ts, t.shape = shape) :
    sharedShape ts = .ok shape := by
  obtain ⟨t, rest, rfl⟩ := exists_cons_of_ne_nil nonempty
  rw [forall_mem_cons] at same
  have first : commonShape? [] t.shape = some shape := by
    rw [same.1]
    exact congrArg some (reverse_reverse shape)
  have own (u : Tensor) (equal : u.shape = shape) : commonShape? shape u.shape = some shape := by
    rw [equal, commonShape?_self]
  unfold sharedShape
  rw [foldlM_cons, first]
  refine foldlM_of_same (fun u equal => ?_) same.2
  simp only [own u equal]
  rfl

end Bladewright.Tensor
