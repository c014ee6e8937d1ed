import Bladewright.Proofs.Host.Scanning

/-!
Tokens that are read alike wherever they stand.
-/
namespace Bladewright.Host

open List Parse Grammar

/-! ### Single steps -/

section
variable {α β : Type} {ts rest : List Token} {s : String}

theorem run_bind_of {p : Parse α} {f : α → Parse β} {a : α} (read : p.run ts = some (a, rest)) :
    (p >>= f).run ts = (f a).run rest := by
  rw [StateT.run_bind, read]
  rfl

theorem run_sees (s : String) (ts : List Token) : (sees s).run ts = some (ts.head? == some (.op s), ts) := rfl

theorem run_sees_other (other : ts.head? ≠ some (.op s)) : (sees s).run ts = some (false, ts) := by
  simp [run_sees, other]

theorem run_takes_own (s : String) (ts : List Token) : (takes s).run (.op s :: ts) = some (true, ts) := by
  simp [takes, run_sees, skip, StateT.run_bind]

theorem run_takes_other (other : ts.head? ≠ some (.op s)) : (takes s).run ts = some (false, ts) := by
  simp [takes, run_sees, StateT.run_bind, other]

theorem run_takesWord_other (own : Token.ofWord s = .word s) (other : ts.head? ≠ some (.word s)) :
    (takesWord s).run ts = some (false, ts) := by
  simp [takesWord, seesWord, StateT.run_bind, own, other]

theorem run_expect (s : String) (ts : List Token) : (expect s).run (.op s :: ts) = some ((), ts) := by
  rw [expect, run_bind_of (run_takes_own s ts)]
  rfl

/-- What reads item after item and then stops gives all items. An item may depend on how the rest begins. -/
theorem run_many {p : Parse (Option α)} (Next : List Token → Prop) {items : List (List Token × α)}
    (each : ∀ item ∈ items, item.1 ≠ [] ∧ (∀ more, Next (item.1 ++ more)) ∧
      ∀ more, Next more → p.run (item.1 ++ more) = some (some item.2, more))
    (next : Next rest) (stop : p.run rest = some (none, rest)) :
    (many p).run (items.flatMap (·.1) ++ rest) = some (items.map (·.2), rest) := by
  have enough (fuel : Nat) (long : (items.flatMap (·.1)).length < fuel) :
      (repeated p fuel).run (items.flatMap (·.1) ++ rest) = some (items.map (·.2), rest) := by
    induction items generalizing fuel with
    | nil =>
      obtain ⟨fuel, rfl⟩ := Nat.exists_eq_succ_of_ne_zero (Nat.ne_of_gt long)
      simp [repeated, StateT.run_bind, stop]
    | cons item items ih =>
      obtain ⟨⟨nonempty, -, reads⟩, others⟩ := forall_mem_cons.mp each
      have follows : Next (items.flatMap (·.1) ++ rest) := by
        cases items with
        | nil => exact next
        | cons other items => simpa using (others other mem_cons_self).2.1 (items.flatMap (·.1) ++ rest)
      have positive := length_pos_iff.mpr nonempty
      simp only [flatMap_cons, length_append] at long
      obtain ⟨fuel, rfl⟩ := Nat.exists_eq_succ_of_ne_zero (show fuel ≠ 0 by omega)
      simp [repeated, StateT.run_bind, reads _ follows, ih others fuel (by omega)]
  rw [many, run_bind_of (StateT.run_get _)]
  exact enough _ (by rw [length_append]; omega)

end

/-! ### Levels -/

/-- The tokens that end an expression without being part of one. -/
def closers : List Token := [.newline, .op ",", .op ")", .op "]"]

def Closes (ts : List Token) : Prop := ∃ t more, ts = t :: more ∧ t ∈ closers

theorem closes_op {o : String} (closing : .op o ∈ closers) (more : List Token) : Closes (.op o :: more) :=
  ⟨_, _, rfl, closing⟩

/-- A property of token lists holds before the end of an expression if it does for each token that ends one. -/
theorem Closes.elim {rest : List Token} (closes : Closes rest) {P : List Token → Prop}
    (each : (∀ more, P (.newline :: more)) ∧ (∀ more, P (.op "," :: more)) ∧ (∀ more, P (.op ")" :: more)) ∧
      ∀ more, P (.op "]" :: more)) : P rest := by
  obtain ⟨t, more, rfl, mem⟩ := closes
  simp only [closers, mem_cons, not_mem_nil, or_false] at mem
  rcases mem with rfl | rfl | rfl | rfl
  exacts [each.1 more, each.2.1 more, each.2.2.1 more, each.2.2.2 more]

section
variable {n : Nested} {t : Token} {ts rest : List Token} {e : Expr} (closes : Closes rest)
include closes

theorem Closes.head_ne {u : Token} (other : u ∉ closers) : rest.head? ≠ some u := by
  obtain ⟨t, more, rfl, mem⟩ := closes
  rintro ⟨⟩
  exact other mem

theorem expression_of_factor (start : t ≠ .word "lambda" ∧ t ≠ .word "not")
    (read : (factor n).run (t :: ts) = some (e, rest)) : (expression n).run (t :: ts) = some (e, rest) := by
  have word {w : String} (own : Token.ofWord w = .word w) (other : t ≠ .word w) :
      (takesWord w).run (t :: ts) = some (false, t :: ts) := run_takesWord_other own (by simpa using other)
  obtain ⟨u, more, rfl, mem⟩ := closes
  simp only [closers, mem_cons, not_mem_nil, or_false] at mem
  rcases mem with rfl | rfl | rfl | rfl
  all_goals
    have products : (term n).run (t :: ts) = some (e, _) := run_bind_of read
    have sums : (sum n).run (t :: ts) = some (e, _) := run_bind_of products
    have shifts : (shift n).run (t :: ts) = some (e, _) := run_bind_of sums
    have ands : (bitAnd n).run (t :: ts) = some (e, _) := run_bind_of shifts
    have xors : (bitXor n).run (t :: ts) = some (e, _) := run_bind_of ands
    have ors : (bitOr n).run (t :: ts) = some (e, _) := run_bind_of xors
    have compared : (comparison n).run (t :: ts) = some (e, _) := run_bind_of ors
    have inverted : (inversion n).run (t :: ts) = some (e, _) := (run_bind_of (word rfl start.2)).trans compared
    have joined : (conjunction n).run (t :: ts) = some (e, _) := run_bind_of inverted
    have either : (disjunction n).run (t :: ts) = some (e, _) := run_bind_of joined
    exact (run_bind_of (word rfl start.1)).trans (run_bind_of either)

theorem factor_of_primary (start : t ∉ [.op "+", .op "-", .op "~", .word "await"])
    (read : (primary n).run (t :: ts) = some (e, rest)) : (factor n).run (t :: ts) = some (e, rest) := by
  have signed {o : String} (other : t ≠ .op o) : (takes o).run (t :: ts) = some (false, t :: ts) :=
    run_takes_other (by simpa using other)
  simp only [mem_cons, not_mem_nil, or_false, not_or] at start
  obtain ⟨plus, minus, invert, await⟩ := start
  have awaited : (awaitPrimary n).run (t :: ts) = some (e, rest) :=
    (run_bind_of (run_takesWord_other rfl (by simpa using await))).trans read
  rw [factor, run_bind_of (signed plus), if_neg (by decide), run_bind_of (signed minus), if_neg (by decide),
    run_bind_of (signed invert), if_neg (by decide), power, run_bind_of awaited,
    run_bind_of (run_takes_other (closes.head_ne (by decide)))]
  rfl

end

/-! ### Items in brackets -/

/-- The start of an item that is neither starred nor named. -/
def startsItem : List Token → Bool
  | .name _ :: .op o :: _ => o != "=" && o != ":="
  | .name _ :: _ | .number _ :: _ => true
  | .op o :: _ => o == "-" || o == "["
  | _ => false

/-- Tokens read as an expression wherever a comma, a closing bracket or the end of the line comes next. -/
structure Reads (ts : List Token) (e : Expr) : Prop where
  plain : isStarred e = false ∧ isKeyword e = false
  start : ∀ rest, Closes rest → startsItem (ts ++ rest) = true
  read : ∀ depth ≥ ts.length, ∀ rest, Closes rest →
    (Grammar.expression (.ofDepth depth)).run (ts ++ rest) = some (e, rest)

theorem head_ne_of_startsItem {ts : List Token} (start : startsItem ts = true) {o : String} (other : o ≠ "-" ∧ o ≠ "[") :
    ts.head? ≠ some (.op o) := by
  rintro eq
  obtain ⟨_, rfl⟩ := List.head?_eq_some_iff.mp eq
  simp_all [startsItem]

namespace Reads

variable {ts rest : List Token} {e : Expr} (own : Reads ts e) {depth : Nat} (deep : ts.length ≤ depth)
  (closes : Closes rest)
include own closes

theorem other {o : String} (other : o ≠ "-" ∧ o ≠ "[") : (ts ++ rest).head? ≠ some (.op o) :=
  head_ne_of_startsItem (own.start rest closes) other

include deep

theorem run_named : (Nested.ofDepth (depth + 1)).namedExpression.run (ts ++ rest) = some (e, rest) := by
  have start := own.start rest closes
  change (namedExpression _).run _ = _
  rw [namedExpression, run_bind_of (StateT.run_get _)]
  split
  · rename_i eq
    simp [eq, startsItem] at start
  · rw [run_bind_of (own.read depth deep rest closes), run_bind_of (run_sees_other (closes.head_ne (by decide)))]
    rfl

theorem run_argument : (argument (.ofDepth (depth + 1))).run (ts ++ rest) = some (e, rest) := by
  have start := own.start rest closes
  rw [argument, run_bind_of (run_takes_other (own.other closes (by decide))), if_neg (by decide),
    run_bind_of (run_takes_other (own.other closes (by decide))), if_neg (by decide), run_bind_of (StateT.run_get _)]
  split
  · rename_i eq
    simp [eq, startsItem] at start
  · rw [run_bind_of (own.run_named deep closes), run_bind_of (run_sees_other (closes.head_ne (by decide)))]
    rfl

theorem run_sliceItem : (sliceItem (.ofDepth (depth + 1))).run (ts ++ rest) = some (e, rest) := by
  have stop := closes.head_ne (show Token.op ":" ∉ closers by decide)
  rw [sliceItem, run_bind_of (run_takes_other (own.other closes (by decide))), if_neg (by decide),
    run_bind_of (run_sees_other (own.other closes (by decide)))]
  simp [StateT.run_bind, run_takes_other stop, own.run_named deep closes]

end Reads

/-- Lists of tokens with commas between them. -/
def divided : List (List Token) → List Token
  | [] => []
  | ts :: tss => ts ++ tss.flatMap (.op "," :: ·)

theorem length_le_divided {tss : List (List Token)} {ts : List Token} (mem : ts ∈ tss) :
    ts.length ≤ (divided tss).length := by
  cases tss with
  | nil => cases mem
  | cons first others =>
    rcases mem_cons.mp mem with rfl | later
    · simp [divided]
    · obtain ⟨before, after, rfl⟩ := append_of_mem later
      simp [divided]
      omega

theorem closes_divided {close : String} (closing : .op close ∈ closers) (tss : List (List Token)) (more : List Token) :
    Closes (tss.flatMap (.op "," :: ·) ++ .op close :: more) := by
  cases tss with
  | nil => exact closes_op closing more
  | cons ts tss => exact closes_op (by decide) _

theorem run_others {α : Type} {close : String} {item : Parse α} {items : List (List Token × α)}
    (each : ∀ x ∈ items, ∀ rest, Closes rest →
      item.run (x.1 ++ rest) = some (x.2, rest) ∧ (x.1 ++ rest).head? ≠ some (.op close))
    (closing : .op close ∈ closers) (other : close ≠ ",") (more : List Token) :
    (others item close).run ((items.map (·.1)).flatMap (.op "," :: ·) ++ .op close :: more) =
      some (items.map (·.2), more) := by
  have stop : (Token.op close :: more).head? ≠ some (.op ",") := by simpa using other
  have pairs : (items.map (·.1)).flatMap (.op "," :: ·) =
      (items.map fun x => (Token.op "," :: x.1, x.2)).flatMap (·.1) := by
    simp [flatMap_map]
  rw [others, following, pairs, run_bind_of (run_many Closes ?_ (closes_op closing more) ?_),
    run_bind_of (run_takes_other stop), run_bind_of (run_expect _ _)]
  · simp
  · intro x mem
    obtain ⟨y, own, rfl⟩ := mem_map.mp mem
    refine ⟨by simp, fun more => closes_op (by decide) _, fun more next => ?_⟩
    obtain ⟨reads, starts⟩ := each y own more next
    rw [cons_append, run_bind_of (run_sees _ _)]
    simp only [List.head?_cons, beq_self_eq_true, if_true]
    rw [run_bind_of (StateT.run_get _), run_bind_of (show skip.run _ = some ((), y.1 ++ more) from rfl),
      run_bind_of (run_sees_other starts), if_neg (by decide), run_bind_of reads]
    rfl
  · rw [run_bind_of (run_sees_other stop)]
    rfl

theorem argumentsOrdered_of_plain {es : List Expr} (each : ∀ e ∈ es, isStarred e = false ∧ isKeyword e = false) :
    argumentsOrdered false false es = true := by
  induction es with
  | nil => rfl
  | cons e es ih =>
    obtain ⟨⟨unstarred, unnamed⟩, others⟩ := forall_mem_cons.mp each
    cases e <;> simp_all [argumentsOrdered, isStarred, isKeyword]

theorem run_seesClause {rest : List Token} (closes : Closes rest) : seesClause.run rest = some (false, rest) :=
  closes.elim (P := fun rest => seesClause.run rest = some (false, rest))
    ⟨fun _ => rfl, fun _ => rfl, fun _ => rfl, fun _ => rfl⟩

/-- Items in brackets are read one after the other: the first, which starts no comprehension, and the others. -/
theorem run_divided {item : Parse Expr} {close : String} (closing : .op close ∈ closers) (other : close ≠ ",")
    {x : List Token × Expr} {items : List (List Token × Expr)} (each : ∀ y ∈ x :: items, ∀ rest, Closes rest →
      item.run (y.1 ++ rest) = some (y.2, rest) ∧ (y.1 ++ rest).head? ≠ some (.op close)) (more : List Token) :
    let ts := divided ((x :: items).map (·.1)) ++ .op close :: more
    (takes close).run ts = some (false, ts) ∧ ∃ rest, item.run ts = some (x.2, rest) ∧
      seesClause.run rest = some (false, rest) ∧ (others item close).run rest = some (items.map (·.2), more) := by
  have closes := closes_divided closing (items.map (·.1)) more
  obtain ⟨first, start⟩ := each x mem_cons_self _ closes
  rw [map_cons, divided, append_assoc]
  exact ⟨run_takes_other start, _, first, run_seesClause closes,
    run_others (fun y mem => each y (mem_cons_of_mem x mem)) closing other more⟩

section
variable {items : List (List Token × Expr)} (each : ∀ x ∈ items, Reads x.1 x.2) {depth : Nat}
  (deep : (divided (items.map (·.1))).length ≤ depth) (more : List Token)
include each deep

theorem run_arguments : (arguments (.ofDepth (depth + 1))).run (divided (items.map (·.1)) ++ .op ")" :: more) =
    some ((items.map (·.2), []), more) := by
  have plain : ∀ e ∈ items.map (·.2), isStarred e = false ∧ isKeyword e = false := by
    simpa using fun ts e mem => (each _ mem).plain
  have kept : (items.map (·.2)).filter (!isKeyword ·) = items.map (·.2) :=
    filter_eq_self.mpr fun e mem => by simp [(plain e mem).2]
  have keywords : (items.map (·.2)).filter isKeyword = [] :=
    filter_eq_nil_iff.mpr fun e mem => by simp [(plain e mem).2]
  have reads (x) (mem : x ∈ items) (rest : List Token) (closes : Closes rest) :=
    And.intro ((each x mem).run_argument ((length_le_divided (mem_map_of_mem mem)).trans deep) closes)
      ((each x mem).other closes (o := ")") (by decide))
  cases items with
  | nil => rfl
  | cons x items =>
    obtain ⟨start, rest, first, clause, following⟩ := run_divided (by decide) (by decide) reads more
    rw [arguments, run_bind_of start, if_neg (by decide), run_bind_of first, run_bind_of clause, if_neg (by decide),
      run_bind_of following]
    rw [map_cons] at plain kept keywords ⊢
    simp [argumentsOrdered_of_plain plain, kept, keywords]

end

theorem Reads.run_index {ts : List Token} {e : Expr} (own : Reads ts e) {depth : Nat} (deep : ts.length ≤ depth)
    (more : List Token) : (index (.ofDepth (depth + 1))).run (ts ++ .op "]" :: more) = some (e, more) := by
  rw [index, run_bind_of (own.run_sliceItem deep (closes_op (by decide) more)),
    run_bind_of (run_sees_other (by simp)), if_neg (by decide), run_bind_of (run_expect _ _), own.plain.1]
  rfl

/-! ### Primaries -/

/-- Tokens read as what may follow an expression and refers to it. -/
structure Trails (ts : List Token) (t : Trailer) : Prop where
  start : ∃ o ∈ [".", "(", "["], ∃ more, ts = .op o :: more
  read : ∀ depth ≥ ts.length, ∀ more, (trailer (.ofDepth depth)).run (ts ++ more) = some (some t, more)

theorem trails_field (id : String) : Trails [.op ".", .name id] (.field id) :=
  ⟨⟨".", by decide, _, rfl⟩, fun _ _ _ => rfl⟩

/-- A trailer in brackets, from how their inside is read. -/
theorem trails_within {o c : String} {inside : List Token} {t : Trailer} (opens : o ∈ [".", "(", "["])
    (read : ∀ depth ≥ inside.length, ∀ more,
      (trailer (.ofDepth (depth + 1))).run (.op o :: (inside ++ .op c :: more)) = some (some t, more)) :
    Trails (.op o :: inside ++ [.op c]) t := by
  refine ⟨⟨o, opens, _, rfl⟩, fun depth deep more => ?_⟩
  simp only [cons_append, length_cons, length_append] at deep
  obtain ⟨depth, rfl⟩ := Nat.exists_eq_succ_of_ne_zero (show depth ≠ 0 by omega)
  simpa using read depth (by omega) more

theorem trails_index {ts : List Token} {e : Expr} (own : Reads ts e) : Trails (.op "[" :: ts ++ [.op "]"]) (.index e) :=
  trails_within (by decide) fun depth deep more =>
    calc (trailer _).run (.op "[" :: (ts ++ .op "]" :: more))
      _ = (index _ >>= fun i => pure (some (.index i))).run (ts ++ .op "]" :: more) := rfl
      _ = some (some (.index e), more) := run_bind_of (own.run_index deep more)

theorem trails_call {items : List (List Token × Expr)} (each : ∀ x ∈ items, Reads x.1 x.2) :
    Trails (.op "(" :: divided (items.map (·.1)) ++ [.op ")"]) (.call (items.map (·.2)) []) :=
  trails_within (by decide) fun depth deep more =>
    calc (trailer _).run (.op "(" :: (divided (items.map (·.1)) ++ .op ")" :: more))
      _ = (arguments _ >>= fun given => pure (some (.call given.1 given.2))).run _ := rfl
      _ = some (some (.call (items.map (·.2)) []), more) := run_bind_of (run_arguments each deep more)

theorem run_primary (items : List (List Token × Trailer)) {us rest : List Token} {a : Expr} {depth : Nat}
    (closes : Closes rest) (each : ∀ x ∈ items, Trails x.1 x.2) (deep : ∀ x ∈ items, x.1.length ≤ depth)
    (first : (atom (.ofDepth depth)).run us = some (a, items.flatMap (·.1) ++ rest)) :
    (primary (.ofDepth depth)).run us = some ((items.map (·.2)).foldl Trailer.apply a, rest) := by
  have stop : (trailer (.ofDepth depth)).run rest = some (none, rest) :=
    closes.elim (P := fun rest => (trailer (.ofDepth depth)).run rest = some (none, rest))
      ⟨fun _ => rfl, fun _ => rfl, fun _ => rfl, fun _ => rfl⟩
  rw [primary, run_bind_of first, run_bind_of (run_many (fun _ => True) ?_ trivial stop)]
  · rfl
  · intro x mem
    obtain ⟨o, -, more, eq⟩ := (each x mem).start
    exact ⟨by simp [eq], by simp, fun more _ => (each x mem).read depth (deep x mem) more⟩

/-- Tokens read as a name and what refers to it. -/
def Chain (ts : List Token) (e : Expr) : Prop :=
  ∃ id, ∃ items : List (List Token × Trailer), (∀ x ∈ items, Trails x.1 x.2) ∧
    ts = .name id :: items.flatMap (·.1) ∧ e = (items.map (·.2)).foldl Trailer.apply (.name id)

theorem chain_name (id : String) : Chain [.name id] (.name id) := ⟨id, [], by simp, rfl, rfl⟩

theorem Chain.trail {ts us : List Token} {e : Expr} {t : Trailer} (chain : Chain ts e) (own : Trails us t) :
    Chain (ts ++ us) (t.apply e) := by
  obtain ⟨id, items, each, rfl, rfl⟩ := chain
  exact ⟨id, items ++ [(us, t)], by simpa [or_imp, forall_and, own] using each, by simp, by simp⟩

theorem Chain.reads {ts : List Token} {e : Expr} (chain : Chain ts e) : Reads ts e := by
  obtain ⟨id, items, each, rfl, rfl⟩ := chain
  refine ⟨?_, fun rest closes => ?_, fun depth deep rest closes => ?_⟩
  · rcases eq_nil_or_concat (items.map (·.2)) with empty | ⟨init, t, last⟩
    · rw [empty]
      exact ⟨rfl, rfl⟩
    · rw [last, concat_eq_append, foldl_append]
      cases t <;> exact ⟨rfl, rfl⟩
  · cases items with
    | nil =>
      exact closes.elim (P := fun rest => startsItem (.name id :: rest) = true)
        ⟨fun _ => rfl, fun _ => rfl, fun _ => rfl, fun _ => rfl⟩
    | cons x items =>
      obtain ⟨o, mem, more, eq⟩ := (each x mem_cons_self).start
      simp only [mem_cons, not_mem_nil, or_false] at mem
      simp only [flatMap_cons, eq, cons_append]
      rcases mem with rfl | rfl | rfl <;> rfl
  · refine expression_of_factor closes (by simp) (factor_of_primary closes (by simp) ?_)
    refine run_primary items closes each (fun x mem => ?_) rfl
    obtain ⟨before, after, rfl⟩ := append_of_mem mem
    simp at deep
    omega

section
variable {t : Token} {e : Expr} (start : t ∉ [.op "+", .op "-", .op "~", .word "await"])
  (single : ∀ depth rest, (atom (.ofDepth depth)).run (t :: rest) = some (e, rest))
include start single

theorem factor_atom {rest : List Token} (closes : Closes rest) (depth : Nat) :
    (factor (.ofDepth depth)).run (t :: rest) = some (e, rest) :=
  factor_of_primary closes start (run_primary [] closes (by simp) (by simp) (single depth rest))

theorem reads_minus : Reads [.op "-", t] (.unary .minus e) := by
  refine ⟨⟨rfl, rfl⟩, fun _ _ => rfl, fun depth deep rest closes => ?_⟩
  obtain ⟨depth, rfl⟩ := Nat.exists_eq_succ_of_ne_zero (Nat.ne_of_gt (Nat.lt_of_lt_of_le (by simp) deep))
  refine expression_of_factor closes (by simp) ?_
  calc (factor _).run (.op "-" :: t :: rest)
    _ = (factor (.ofDepth depth) >>= fun e => pure (.unary .minus e)).run (t :: rest) := rfl
    _ = some (.unary .minus e, rest) := run_bind_of (factor_atom start single closes depth)

end

theorem reads_number (value : Literal) : Reads [.number value] (.literal value) :=
  ⟨⟨rfl, rfl⟩, fun _ _ => rfl, fun depth _ _ closes =>
    expression_of_factor closes (by simp) (factor_atom (by simp) (fun _ _ => rfl) closes depth)⟩

end Bladewright.Host
