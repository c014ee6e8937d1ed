import Bladewright.Proofs.Dense.Integers

/-!
Components of grades in the dense layout and back.
-/
namespace Bladewright

open Element

open List hiding count

open Host Numeral

/-! ### Elements and components -/

namespace Element

def value : Element → Floating
  | whole n => .finite n
  | real x => x

/-- The elements that a tensor of a numeric type can have. -/
def IsOf : Dtype → Element → Prop
  | .bool, _ => False
  | .int64, e => ∃ n, e = whole n ∧ wrap n = n
  | .float32, e | .float64, e => ∃ x, e = real x

/-- What is left of a number in a type: integers have no fraction. -/
def kept (d : Dtype) (x : Floating) : Floating := if d = .int64 then .finite (truncate x) else x

theorem truncate_intCast {n : ℤ} (fits : wrap n = n) : truncate (.finite n) = n := by
  simpa [truncate] using fits

variable {e : Element}

theorem kept_value {d : Dtype} (kind : e.IsOf d) : kept d e.value = e.value := by
  cases d with
  | bool => exact kind.elim
  | int64 =>
    obtain ⟨n, rfl, fits⟩ := kind
    exact congrArg (fun n : ℤ => Floating.finite n) (truncate_intCast fits)
  | float32 | float64 => rfl

/-- A change of type keeps what the type keeps, of every number that the shortest format holds. -/
theorem value_cast {own d : Dtype} (numeric : d ≠ .bool) (kind : e.IsOf own)
    (held : binary32.Holds e.value) : (e.cast d).value = kept d e.value := by
  have rounded : (e.cast .float32).value = e.value ∧ (e.cast .float64).value = e.value := by
    cases e with
    | whole n => exact ⟨Format.round_of_holds held, Format.round_of_holds (Format.holds_binary64 held)⟩
    | real x => exact ⟨Format.convert_of_holds held, Format.convert_of_holds (Format.holds_binary64 held)⟩
  cases d with
  | bool => exact absurd rfl numeric
  | float32 => exact rounded.1
  | float64 => exact rounded.2
  | int64 =>
    cases e with
    | real x => rfl
    | whole n =>
      cases own with
      | int64 => exact (kept_value kind).symm
      | bool => exact kind.elim
      | float32 | float64 => cases kind; contradiction

end Element

/-- A tensor of a numeric type that is full, with numbers that the shortest format holds. -/
structure Tensor.Exact (t : Tensor) : Prop where
  full : t.data.length = count t.shape
  numeric : t.dtype ≠ .bool
  kinds : ∀ e ∈ t.data, e.IsOf t.dtype
  held : ∀ e ∈ t.data, binary32.Holds e.value

namespace Tensor

/-- The number at a place. -/
def numberAt? (t : Tensor) (index : List Nat) : Option Floating := (t.data[offset t.shape index]?).map value

theorem cast_eq (d : Dtype) (t : Tensor) :
    t.cast d = ⟨d, t.shape, if t.dtype = d then t.data else t.data.map (Element.cast d)⟩ := by
  unfold Tensor.cast
  split
  · rename_i same
    rw [← same]
  · rfl

theorem length_cast (d : Dtype) (t : Tensor) : (t.cast d).data.length = t.data.length := by
  rw [cast_eq]
  split
  · rfl
  · exact length_map _

end Tensor

variable {d : Dtype} {t : Tensor}

theorem Tensor.Exact.value_cast (exactly : t.Exact) (numeric : d ≠ .bool) :
    (t.cast d).data.map value = (t.data.map value).map (kept d) := by
  rw [map_map]
  unfold Tensor.cast
  split
  · rename_i same
    exact map_congr_left fun e mem => (kept_value (same ▸ exactly.kinds e mem)).symm
  · rw [map_map]
    exact map_congr_left fun e mem => Element.value_cast numeric (exactly.kinds e mem) (exactly.held e mem)

namespace Dense

open Tensor

/-- A component: a number or a tensor, of values that the shortest format holds. -/
inductive Component where
  | number (c : Value) (x : Floating) (read : c.number? = some x) (held : binary32.Holds x)
  | tensor (t : Tensor) (exactly : t.Exact)

namespace Component

def value : Component → Value
  | number c .. => c
  | tensor t _ => .tensor t

def asTensor : Component → Tensor
  | number _ x .. => ⟨.float32, [], [.real x]⟩
  | tensor t _ => t

theorem exact : (c : Component) → c.asTensor.Exact
  | tensor _ exactly => exactly
  | number _ x _ held => ⟨rfl, nofun, by simp [asTensor, Element.IsOf], by simpa [asTensor, Element.value] using held⟩

theorem fillTensor_number {c : Value} {x : Floating} (read : c.number? = some x) (held : binary32.Holds x) :
    c.fillTensor .default = .ok ⟨.float32, [], [.real x]⟩ := by
  cases c with
  | bool b =>
    cases read
    cases b <;> exact congrArg (fun x => Except.ok (Tensor.mk .float32 [] [.real x])) (Format.round_of_holds held)
  | int n =>
    cases read
    have wide := Format.round_of_holds (Format.holds_binary64 held)
    have short : cast .default (.real (.finite n)) = .real (.finite n) :=
      congrArg real (Format.round_of_holds held)
    simp only [Value.fillTensor, Value.ofNumber, wide, short]
    rfl
  | float x =>
    cases read
    have short : cast .default (.real x) = .real x := congrArg real (Format.convert_of_holds held)
    simp only [Value.fillTensor, Value.ofNumber, short]
    rfl
  | _ => cases read

/-- Whatever takes tensors as they are and fills numbers in makes the tensors of components. -/
theorem mapM_fill {fill : Value → Except Fault Tensor} (tensors : ∀ t, fill (.tensor t) = .ok t)
    (numbers : ∀ c x, c.number? = some x → fill c = c.fillTensor .default) (cs : List Component) :
    (cs.map value).mapM fill = .ok (cs.map asTensor) := by
  rw [mapM_map]
  refine Outcome.mapM_ok fun c _ => ?_
  cases c with
  | number c x read held => exact (numbers c x read).trans (fillTensor_number read held)
  | tensor t => exact tensors t

/-- A full tensor of a type and shape that has at each place the number of a component there, as the type keeps it. -/
structure Restores (d : Dtype) (axes : List Nat) (c : Component) (t : Tensor) : Prop where
  dtype : t.dtype = d
  shape : t.shape = axes
  full : t.data.length = count axes
  same : ∀ index, List.Forall₂ (· < ·) index axes → ∃ x,
    c.asTensor.numberAt? (aligned c.asTensor.shape index) = some x ∧ t.numberAt? index = some (kept d x)

theorem restores_broadcastTo (numeric : d ≠ .bool) {shape : List Nat} {c : Component}
    (fits : Fits c.asTensor.shape.reverse shape.reverse) :
    Restores d shape c ((c.asTensor.cast d).broadcastTo shape) := by
  have full : (c.asTensor.cast d).data.length = count c.asTensor.shape :=
    (length_cast d c.asTensor).trans c.exact.full
  have data : ((c.asTensor.cast d).broadcastTo shape).data =
      broadcast shape c.asTensor.shape (c.asTensor.cast d).data := by
    rw [Tensor.cast_eq]
    rfl
  refine ⟨by rw [Tensor.cast_eq]; rfl, rfl, by rw [data, length_broadcast fits full], fun index inside => ?_⟩
  have place := offset_aligned_lt fits inside
  rw [← c.exact.full] at place
  refine ⟨_, congrArg (Option.map Element.value) (getElem?_eq_getElem place), ?_⟩
  calc numberAt? ((c.asTensor.cast d).broadcastTo shape) index
    _ = (((c.asTensor.cast d).data.map Element.value)[offset _ (aligned c.asTensor.shape index)]?) := by
      rw [getElem?_map, ← getElem?_broadcast fits inside full, ← data]
      rfl
    _ = _ := by
      rw [c.exact.value_cast numeric, getElem?_map, getElem?_map, getElem?_eq_getElem place]
      rfl

end Component

/-! ### Places of blades -/

/-- The blades of grades in any order: each of them once, as many as there are choices of basis vectors. -/
theorem bladesOf_ok (s : Signature) {ks : List Nat} (distinct : ks.Nodup) :
    ∃ blades, bladesOf s (ks.map Int.ofNat) = .ok blades ∧ blades.Nodup ∧
      (∀ blade, blade ∈ blades ↔ blade < s.size ∧ Blade.grade blade ∈ ks) ∧
      blades.length = (ks.map s.dimension.choose).sum := by
  have sorted : ((ks.map Int.ofNat).mergeSort (· ≤ ·)).Perm (ks.map Int.ofNat) := mergeSort_perm _ _
  have order : (((ks.map Int.ofNat).mergeSort (· ≤ ·)).map Int.toNat).Perm ks := by
    simpa [Function.comp_def] using sorted.map Int.toNat
  refine ⟨(((ks.map Int.ofNat).mergeSort (· ≤ ·)).map Int.toNat).flatMap (Blade.ofGrade s.dimension), ?_,
    Blade.nodup_flatMap_ofGrade _ (order.nodup_iff.mpr distinct), fun blade => ?_, ?_⟩
  · rw [flatMap_map, flatMap_def]
    unfold bladesOf
    rw [Outcome.mapM_ok fun k mem => ?_]
    · rfl
    · obtain ⟨k, -, rfl⟩ := mem_map.mp (sorted.mem_iff.mp mem)
      rfl
  · simp only [mem_flatMap, order.mem_iff, Blade.mem_ofGrade]
    exact ⟨fun ⟨k, listed, small, grade⟩ => ⟨small, grade ▸ listed⟩, fun ⟨small, listed⟩ => ⟨_, listed, small, rfl⟩⟩
  · rw [length_flatMap, (order.map _).sum_eq]
    simp only [Blade.length_ofGrade]

section Rows

variable {α : Type} [Inhabited α] {ops : Arithmetic α} {s : Signature} {blades : List Nat}

omit [Inhabited α] in
theorem gatherRow_singleton (blade : Nat) (row : List α) : gatherRow [blade] row = (row[blade]?).toList := by
  cases found : row[blade]? <;> simp [gatherRow, found]

variable {blade n : Nat} {rows : List (List α)}

omit [Inhabited α] in
theorem getElem?_scatterRow {entries : List (Nat × α)} (small : blade < s.size) :
    (scatterRow ops s entries)[blade]? = some ((entries.reverse.lookup blade).getD ops.zero) := by
  simp [scatterRow, small]

omit [Inhabited α] in
/-- What is put at the places of distinct blades is found there. -/
theorem getElem?_scatterRow_zip (distinct : blades.Nodup) {row : List α} (long : blades.length = row.length) {j : Nat}
    (listed : j < blades.length) (small : blades[j] < s.size) :
    (scatterRow ops s (blades.zip row))[blades[j]]? = row[j]? := by
  have keys : ((blades.zip row).map (·.1)).Nodup := by rwa [map_fst_zip long.le]
  have mem : (blades[j], row[j]) ∈ blades.zip row :=
    mem_iff_getElem.mpr ⟨j, by simpa [← long] using listed, by simp⟩
  rw [getElem?_scatterRow small, lookup_reverse keys, lookup_of_mem keys mem, Option.getD_some,
    getElem?_eq_getElem (long ▸ listed)]

omit [Inhabited α] in
theorem getElem?_scatterRow_of_not_mem (small : blade < s.size) (absent : blade ∉ blades) (row : List α) :
    (scatterRow ops s (blades.zip row))[blade]? = some ops.zero := by
  have missing : (blades.zip row).reverse.lookup blade = none := by
    rw [lookup_eq_none_iff]
    rintro ⟨key, x⟩ stored
    exact bne_iff_ne.mpr fun same => absent (same ▸ (of_mem_zip (mem_reverse.mp stored)).1)
  rw [getElem?_scatterRow small, missing, Option.getD_none]

theorem gather_scatter (distinct : blades.Nodup) (small : ∀ blade ∈ blades, blade < s.size) {data : List (List α)}
    (long : blades.length = data.length) (each : ∀ xs ∈ data, xs.length = n) :
    (blades.map fun blade => ((columns n data).map fun row => scatterRow ops s (blades.zip row)).flatMap
      (gatherRow [blade])) = data := by
  rw [columns_of_length each default]
  refine ext_getElem (by simpa using long) fun j _ stored => ?_
  have listed : j < blades.length := long ▸ stored
  have found (i : Nat) :
      gatherRow [blades[j]] (scatterRow ops s (blades.zip (data.map fun xs => (xs[i]?).getD default))) =
        [((data[j])[i]?).getD default] := by
    rw [gatherRow_singleton, getElem?_scatterRow_zip distinct (by simpa using long) listed
      (small _ (getElem_mem listed)), getElem?_map, getElem?_eq_getElem stored]
    rfl
  have whole := map_range_getD id default (data[j])
  rw [each _ (getElem_mem stored), map_id] at whole
  simp only [getElem_map, map_map, flatMap_map, Function.comp_apply, found]
  rw [← map_eq_flatMap]
  exact whole

theorem flatMap_gatherRow (each : ∀ row ∈ rows, row.length = s.size)
    (small : blade < s.size) : rows.flatMap (gatherRow [blade]) = rows.map fun row => (row[blade]?).getD default := by
  rw [map_eq_flatMap]
  refine flatMap_congr fun row mem => ?_
  rw [gatherRow_singleton, getElem?_eq_getElem (each row mem ▸ small)]
  rfl

/-- Rows that are read at the places of distinct blades and put back there are zero elsewhere. -/
theorem scatter_gather (distinct : blades.Nodup) (small : ∀ blade ∈ blades, blade < s.size)
    (each : ∀ row ∈ rows, row.length = s.size) (tall : rows.length = n) {p : Nat → Prop} [DecidablePred p]
    (chosen : ∀ blade < s.size, blade ∈ blades ↔ p blade) :
    ((columns n (blades.map fun blade => rows.flatMap (gatherRow [blade]))).map fun row =>
      scatterRow ops s (blades.zip row)) =
      rows.map fun row => row.mapIdx fun blade x => if p blade then x else ops.zero := by
  subst tall
  have read : (blades.map fun blade => rows.flatMap (gatherRow [blade])) =
      blades.map fun blade => rows.map fun row => (row[blade]?).getD default :=
    map_congr_left fun blade mem => flatMap_gatherRow each (small blade mem)
  have transposed : columns rows.length (blades.map fun blade => rows.flatMap (gatherRow [blade])) =
      rows.map fun row => blades.map fun blade => (row[blade]?).getD default := by
    rw [read, columns_of_length (forall_mem_map.mpr fun _ _ => length_map _) default,
      ← map_range_getD _ default rows]
    refine map_congr_left fun i inside => ?_
    simp [getElem?_eq_getElem (mem_range.mp inside)]
  rw [transposed, map_map]
  -- each row is compared place by place: at a chosen blade, at another blade of the algebra, and behind the last one
  refine map_congr_left fun row mem => ext_getElem? fun blade => ?_
  rw [getElem?_mapIdx, Function.comp_apply]
  by_cases inside : blade < s.size
  · have bound : blade < row.length := each row mem ▸ inside
    have entry : row[blade]? = some row[blade] := getElem?_eq_getElem bound
    by_cases listed : blade ∈ blades
    · obtain ⟨j, place, rfl⟩ := mem_iff_getElem.mp listed
      rw [getElem?_scatterRow_zip distinct (length_map _).symm place inside]
      simp [entry, place, (chosen _ inside).mp listed]
    · rw [getElem?_scatterRow_of_not_mem inside listed, entry]
      simp [(chosen blade inside).not.mp listed]
  · rw [getElem?_eq_none (by simpa [scatterRow] using inside),
      getElem?_eq_none (by simpa [each row mem] using inside)]
    rfl

end Rows

/-! ### Embedding and extraction -/

section

variable {s : Signature} {grades : List ℤ} {blades : List Nat} (listed : bladesOf s grades = .ok blades)
include listed

variable {shape : List Nat}

theorem extract_eq (last : t.shape = shape ++ [s.size]) : extract s (.tensor t) grades =
      .ok ((blades.map fun blade => t.rows.flatMap (gatherRow [blade])).map (Tensor.mk t.dtype shape)) := by
  have rows : rowsOf s "extract(mv)" (.tensor t) = .ok t := by
    show (if t.shape.getLast? = some s.size then _ else _) = _
    rw [last, getLast?_concat, if_pos rfl]
    rfl
  rw [extract, rows, listed, map_map]
  refine congrArg Except.ok (map_congr_left fun blade _ => ?_)
  rw [mapRows, last, dropLast_concat, Option.toList_none, append_nil]
  rfl

/-- Tensors of one type and shape are put in the rows as they are. -/
theorem embed_same {data : List (List Element)} (nonempty : data ≠ [])
    (each : ∀ xs ∈ data, xs.length = count shape) (long : blades.length = data.length) :
    embed s (.tuple ((data.map (Tensor.mk d shape)).map .tensor)) grades = .ok ⟨d, shape ++ [s.size],
      ((columns (count shape) data).map fun row =>
        scatterRow (elementArithmetic d d) s (blades.zip row)).flatten⟩ := by
  have stretched : (data.map (Tensor.mk d shape)).map (fun t => ((t.cast d).broadcastTo shape).data) = data := by
    refine (map_map ..).trans ((map_congr_left fun xs mem => ?_).trans (map_id _))
    rw [Function.comp_apply, Tensor.cast, if_pos rfl, broadcastTo_self (each xs mem)]
    rfl
  have shared : sharedShape (data.map (Tensor.mk d shape)) = .ok shape :=
    sharedShape_same (by simpa using nonempty) (forall_mem_map.mpr fun _ _ => rfl)
  obtain ⟨xs, rest, rfl⟩ := exists_cons_of_ne_nil nonempty
  rw [embed_eq listed (.inl rfl) (by simpa using long) (fun fill tensors _ => ?_) shared]
  · exact congrArg (fun data => Except.ok (Tensor.mk d (shape ++ [s.size]) ((columns (count shape)
      data).map fun row => scatterRow (elementArithmetic d d) s (blades.zip row)).flatten)) stretched
  · rw [mapM_map, mapM_map]
    exact Outcome.mapM_ok fun ys _ => tensors ⟨d, shape, ys⟩

variable (distinct : blades.Nodup) (small : ∀ blade ∈ blades, blade < s.size)
include distinct small

/-- What is embedded is extracted again, with one type and one shape, and the places of all other blades are zero. -/
theorem extract_of_embed {v : Value} {es : List Value} (holds : v.Holds es) {first : Tensor} {rest : List Tensor}
    (long : blades.length = (first :: rest).length) (given : es.length = (first :: rest).length)
    (filled : ∀ fill : Value → Except Fault Tensor, (∀ t, fill (.tensor t) = .ok t) →
      (∀ c x, c.number? = some x → fill c = c.fillTensor .default) → es.mapM fill = .ok (first :: rest))
    (full : ∀ t ∈ first :: rest, t.data.length = count t.shape)
    (shared : sharedShape (first :: rest) = .ok shape)
    (fits : ∀ t ∈ first :: rest, Fits t.shape.reverse shape.reverse) :
    ∃ t, embed s v grades = .ok t ∧ t.dtype = first.dtype ∧ t.shape = shape ++ [s.size] ∧
      extract s (.tensor t) grades = .ok ((first :: rest).map fun t => (t.cast first.dtype).broadcastTo shape) ∧
      ∀ row ∈ t.rows, row.length = s.size ∧ ∀ blade x, row[blade]? = some x → blade ∉ blades → x = .zero t.dtype := by
  have each : ∀ xs ∈ (first :: rest).map fun t => ((t.cast first.dtype).broadcastTo shape).data,
      xs.length = count shape := by
    refine forall_mem_map.mpr fun t mem => length_broadcast ?_ ?_
    · rw [Tensor.cast_eq]
      exact fits t mem
    · rw [length_cast, Tensor.cast_eq, full t mem]
  have embedded := embed_eq listed holds (long.trans given.symm) filled shared
  -- of the rows themselves only their number, their length and what is gathered from them counts
  obtain ⟨rows, made⟩ : ∃ rows, ((columns (count shape) ((first :: rest).map fun t =>
    ((t.cast first.dtype).broadcastTo shape).data)).map fun row =>
      scatterRow (elementArithmetic first.dtype first.dtype) s (blades.zip row)) = rows := ⟨_, rfl⟩
  rw [made] at embedded
  have gathered : (blades.map fun blade => rows.flatMap (gatherRow [blade])) =
      (first :: rest).map fun t => ((t.cast first.dtype).broadcastTo shape).data := by
    rw [← made, gather_scatter distinct small (by rwa [length_map]) each]
  have wide : ∀ row ∈ rows, row.length = s.size := by
    rw [← made]
    exact forall_mem_map.mpr fun row _ => by simp [scatterRow]
  have apart : Tensor.rows ⟨first.dtype, shape ++ [s.size], rows.flatten⟩ = rows := by
    have height : rows.length = count shape := by
      rw [← made, columns_eq]
      simp
    rw [rows_eq, ← height, pieces_flatten wide]
  refine ⟨_, embedded, rfl, rfl, ?_, ?_⟩
  · rw [extract_eq listed rfl, apart, gathered, map_map]
    refine congrArg Except.ok (map_congr_left fun t _ => ?_)
    rw [Function.comp_apply, Tensor.cast_eq]
    rfl
  · rw [apart]
    refine fun row mem => ⟨wide row mem, fun blade x found absent => ?_⟩
    have inside : blade < s.size := wide row mem ▸ (List.getElem?_eq_some_iff.mp found).1
    rw [← made] at mem
    obtain ⟨entries, -, rfl⟩ := mem_map.mp mem
    rw [getElem?_scatterRow_of_not_mem inside absent] at found
    exact (Option.some.inj found).symm

/-- What is extracted from a full tensor and embedded again is the tensor without the places of other blades. -/
theorem embed_of_extract (nonempty : blades ≠ []) (last : t.shape = shape ++ [s.size])
    (full : t.data.length = count t.shape) {p : Nat → Prop} [DecidablePred p]
    (chosen : ∀ blade < s.size, blade ∈ blades ↔ p blade) :
    ∃ ts : List Tensor, extract s (.tensor t) grades = .ok ts ∧ embed s (.tuple (ts.map .tensor)) grades =
      .ok (t.mapRows (some s.size) fun row => row.mapIdx fun blade x => if p blade then x else .zero t.dtype) := by
  obtain ⟨d, axes, xs⟩ := t
  obtain rfl : axes = shape ++ [s.size] := last
  have height : xs.length = count shape * s.size := by
    simpa [count_eq_prod] using full
  have wide := length_of_mem_pieces height
  have tall := length_pieces s.size (count shape) xs
  have each : ∀ ys ∈ blades.map fun blade => (pieces s.size (count shape) xs).flatMap (gatherRow [blade]),
      ys.length = count shape := by
    refine forall_mem_map.mpr fun blade mem => ?_
    rw [flatMap_gatherRow wide (small blade mem), length_map, tall]
  refine ⟨_, extract_eq listed rfl, ?_⟩
  simp only [mapRows, rows_eq]
  rw [dropLast_concat, embed_same listed (by simpa using nonempty) each
    (length_map _).symm]
  refine congrArg (fun data => Except.ok (Tensor.mk d (shape ++ [s.size]) data)) ?_
  rw [scatter_gather distinct small wide tall chosen, flatMap_def]
  rfl

end

/-- Components of distinct grades are embedded and extracted again with the type of the first one, stretched to their
common shape, and all other grades are zero. What is extracted and embedded again is the tensor with the other grades
zero. -/
theorem extract_embed_inverse (s : Signature) {ks : List Nat} (distinct : ks.Nodup) (nonempty : ks ≠ [])
    (inside : ∀ k ∈ ks, k ≤ s.dimension) :
    (∀ (first : Component) (rest : List Component) (v : Value), v.Holds ((first :: rest).map Component.value) →
      (first :: rest).length = (ks.map s.dimension.choose).sum →
      (∀ a ∈ first :: rest, ∀ b ∈ first :: rest, (commonShape? a.asTensor.shape b.asTensor.shape).isSome) →
      ∃ shape t ts, sharedShape ((first :: rest).map Component.asTensor) = .ok shape ∧
        embed s v (ks.map Int.ofNat) = .ok t ∧ t.shape = shape ++ [s.size] ∧
        extract s (.tensor t) (ks.map Int.ofNat) = .ok ts ∧
        List.Forall₂ (Component.Restores first.asTensor.dtype shape) (first :: rest) ts ∧
        ∀ row ∈ t.rows, row.length = s.size ∧
          ∀ blade x, row[blade]? = some x → Blade.grade blade ∉ ks → x = .zero t.dtype) ∧
    ∀ t : Tensor, t.data.length = count t.shape → t.shape.getLast? = some s.size →
      ∃ ts : List Tensor, extract s (.tensor t) (ks.map Int.ofNat) = .ok ts ∧
        embed s (.tuple (ts.map .tensor)) (ks.map Int.ofNat) = .ok (t.mapRows (some s.size) fun row =>
          row.mapIdx fun blade x => if Blade.grade blade ∈ ks then x else .zero t.dtype) := by
  obtain ⟨blades, listed, once, mem, length⟩ := bladesOf_ok s distinct
  have small (blade : Nat) (found : blade ∈ blades) : blade < s.size := ((mem blade).mp found).1
  constructor
  · intro first rest v holds long compatible
    obtain ⟨shape, shared, fits⟩ := sharedShape_ok (forall_mem_map.mpr fun a left =>
      forall_mem_map.mpr fun b right => compatible a left b right)
    have full : ∀ t ∈ (first :: rest).map Component.asTensor, t.data.length = count t.shape :=
      forall_mem_map.mpr fun c _ => c.exact.full
    obtain ⟨t, embedded, -, axes, extracted, zeros⟩ := extract_of_embed listed once small holds
      (by simpa [length] using long.symm) (by simp)
      (fun fill tensors numbers => Component.mapM_fill tensors numbers (first :: rest)) full shared fits
    refine ⟨shape, t, _, shared, embedded, axes, extracted, ?_, fun row found => ?_⟩
    · rw [← map_cons, map_map, forall₂_map_right_iff, forall₂_same]
      exact fun c found => Component.restores_broadcastTo first.exact.numeric (fits _ (mem_map_of_mem found))
    · obtain ⟨wide, outside⟩ := zeros row found
      refine ⟨wide, fun blade x stored other => outside blade x stored fun placed => ?_⟩
      exact other ((mem blade).mp placed).2
  · intro t full last
    obtain ⟨shape, axes⟩ := getLast?_eq_some_iff.mp last
    have nonempty : blades ≠ [] := by
      obtain ⟨k, rest, rfl⟩ := exists_cons_of_ne_nil nonempty
      have choices := Nat.choose_pos (inside k mem_cons_self)
      rw [map_cons, sum_cons] at length
      exact length_pos_iff.mp (by omega)
    exact embed_of_extract listed once small nonempty axes full fun blade placed =>
      (mem blade).trans (and_iff_right placed)

theorem holds_intCast {n : ℤ} (small : |n| < 2 ^ 24) : binary32.Holds (.finite n) := by
  refine ⟨n, 0, small, by decide, by simp, ?_⟩
  calc |(n : ℚ)|
    _ < (2 : ℚ) ^ 24 := by exact_mod_cast small
    _ < (2 : ℚ) ^ (binary32.maxExponent + 1) := by norm_num [binary32]

def Component.integer (n : ℤ) (small : |n| < 2 ^ 24) : Component := .number (.int n) (.finite n) rfl (holds_intCast small)

def Component.integers (ns : List ℤ) (small : ∀ n ∈ ns, |n| < 2 ^ 24) : Component :=
  .tensor ⟨.int64, [ns.length], ns.map .whole⟩
    { full := by simp [count]
      numeric := nofun
      kinds := forall_mem_map.mpr fun n mem => ⟨n, rfl, by
        have bounds := abs_lt.mp (small n mem)
        rw [wrap_eq]
        omega⟩
      held := forall_mem_map.mpr fun n mem => holds_intCast (small n mem) }

theorem extract_embed_inverse_plane :
    (∃ t ts, embed ⟨2, 0, 0⟩ (.list [.int 7, .tensor ⟨.int64, [2], [.whole 1, .whole (-3)]⟩]) [2, 0] = .ok t ∧
      t.shape = [2, 4] ∧ extract ⟨2, 0, 0⟩ (.tensor t) [2, 0] = .ok ts ∧
      List.Forall₂ (Component.Restores .float32 [2]) [.integer 7 (by decide), .integers [1, -3] (by decide)] ts) ∧
    ∃ ts : List Tensor,
      extract ⟨2, 0, 0⟩ (.tensor ⟨.int64, [4], [.whole 1, .whole 2, .whole 3, .whole 4]⟩) [2, 0] = .ok ts ∧
        embed ⟨2, 0, 0⟩ (.tuple (ts.map .tensor)) [2, 0] =
          .ok ⟨.int64, [4], [.whole 1, .whole 0, .whole 0, .whole 4]⟩ := by
  have inverse := extract_embed_inverse ⟨2, 0, 0⟩ (show [2, 0].Nodup by decide) nofun (by decide)
  obtain ⟨shape, t, ts, shared, embedded, axes, extracted, restored, -⟩ := inverse.1 (.integer 7 (by decide))
    [.integers [1, -3] (by decide)] (.list [.int 7, .tensor ⟨.int64, [2], [.whole 1, .whole (-3)]⟩]) (.inr rfl) rfl
    (by decide)
  cases shared
  exact ⟨⟨t, ts, embedded, axes, extracted, restored⟩, inverse.2 _ rfl rfl⟩

/-- After an integer a fraction is lost. -/
theorem extract_embed_fraction :
    ∃ t, embed ⟨2, 0, 0⟩ (.tuple [.tensor ⟨.int64, [], [.whole 1]⟩, .float (.finite (1 / 2))]) [1] = .ok t ∧
      extract ⟨2, 0, 0⟩ (.tensor t) [1] = .ok [⟨.int64, [], [.whole 1]⟩, ⟨.int64, [], [.whole 0]⟩] := by
  have listed : bladesOf ⟨2, 0, 0⟩ [1] = .ok [1, 2] := by
    rw [bladesOf, mergeSort_singleton]
    rfl
  have held : binary32.Holds (.finite (1 / 2)) := ⟨1, -1, by decide, by decide, by norm_num, by norm_num [binary32]⟩
  obtain ⟨t, embedded, -, -, extracted, -⟩ := extract_of_embed listed (by decide) (by decide)
    (.inl rfl : Value.Holds (.tuple [.tensor ⟨.int64, [], [.whole 1]⟩, .float (.finite (1 / 2))]) _) rfl rfl
    (fun fill tensors numbers => by
      rw [mapM_cons, tensors, mapM_cons, numbers _ _ rfl, Component.fillTensor_number rfl held]
      rfl) (by decide) rfl (by simp [Fits])
  have cut : truncate (.finite (1 / 2)) = 0 := by decide +kernel
  refine ⟨t, embedded, extracted.trans ?_⟩
  exact congrArg (fun n => Except.ok [Tensor.mk .int64 [] [.whole 1], Tensor.mk .int64 [] [.whole n]]) cut

end Dense

end Bladewright
