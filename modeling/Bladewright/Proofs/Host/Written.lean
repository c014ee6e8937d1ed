import Bladewright.Proofs.Host.Reading
import Bladewright.Text.Lines

/-!
Texts of one line and the expressions that they are read as. Names with attributes, subscripts and calls, lists and
numbers are read alike wherever they stand, and so as a whole text.
-/
namespace Bladewright.Host

open List Bladewright.Text Token

/-- Characters that neither end a line nor are refused. -/
def isInline (c : Char) : Bool := c != '\n' && c != '\r' && c != '\x00' && !isSurrogate c

/-- Characters that stay at the ends of a text when it is trimmed. -/
def isEdge (c : Char) : Bool := startsLine c && !isBlank c

/-- A text is one line that gives tokens of some form, wherever it stands with a character after it that it may be
followed by. -/
structure Written (follows : Char → Bool) (Form : List Token → Expr → Prop) (depth : Nat) (cs : List Char) (e : Expr) :
    Prop where
  inline : ∀ c ∈ cs, isInline c = true
  edges : ∃ c ∈ cs.head?, ∃ d ∈ cs.getLast?, isEdge c = true ∧ isEdge d = true
  tokens : ∃ ts, Lexes depth follows cs ts ∧ Form ts e

/-- The text of an argument, whatever its form. -/
abbrev WrittenItem := Written endsNumber Reads

/-- The text of a name with what refers to it. -/
abbrev WrittenChain := Written endsWord Chain

variable {depth : Nat} {cs ds : List Char} {e i : Expr}

variable {Form : List Token → Expr → Prop} {follows : Char → Bool} {id s : String} {items : List (List Char × Expr)}
  {c : Char}

theorem Written.nonempty (own : Written follows Form depth cs e) : cs ≠ [] := by
  obtain ⟨c, head, -⟩ := own.edges
  rintro rfl
  cases head

theorem Written.deeper (own : Written follows Form depth cs e)
    {depth' : Nat} (deeper : depth ≤ depth') : Written follows Form depth' cs e := by
  obtain ⟨ts, lexes, form⟩ := own.tokens
  exact ⟨own.inline, own.edges, ts, lexes.weaken deeper fun _ => id, form⟩

theorem Written.imp (own : Written follows Form depth cs e) {Form' : List Token → Expr → Prop}
    (weaker : ∀ ts, Form ts e → Form' ts e) : Written follows Form' depth cs e := by
  obtain ⟨ts, lexes, form⟩ := own.tokens
  exact ⟨own.inline, own.edges, ts, lexes, weaker ts form⟩

theorem Written.item (chain : WrittenChain depth cs e) : WrittenItem depth cs e := by
  obtain ⟨ts, lexes, form⟩ := chain.tokens
  exact ⟨chain.inline, chain.edges, ts, lexes.weaken le_rfl fun c ends => (endsNumber_iff.mp ends).1, form.reads⟩

/-- A trailer after a chain. -/
theorem Written.trail (chain : WrittenChain depth cs e) {us : List Token} {t : Grammar.Trailer} (trails : Trails us t)
    (lexes : Lexes depth follows ds us) (ends : ∀ c, endsWord c = true → follows c = true)
    (start : ∃ c ∈ ds.head?, endsWord c = true) (last : ∃ d ∈ ds.getLast?, isEdge d = true)
    (inline : ∀ c ∈ ds, isInline c = true) : WrittenChain depth (cs ++ ds) (t.apply e) := by
  obtain ⟨c, head, -, -, left, -⟩ := chain.edges
  obtain ⟨d, tail, right⟩ := last
  obtain ⟨ts, before, form⟩ := chain.tokens
  obtain ⟨o, first, stop⟩ := start
  have nonempty : ds ≠ [] := by
    rintro rfl
    cases first
  refine ⟨fun c mem => ?_, ⟨c, ?_, d, ?_, left, right⟩, ts ++ us, ?_, form.trail trails⟩
  · exact (mem_append.mp mem).elim (chain.inline c) (inline c)
  · rw [head?_append_of_ne_nil _ chain.nonempty]
    exact head
  · rw [getLast?_append_of_ne_nil _ nonempty]
    exact tail
  · refine before.append (lexes.weaken le_rfl ends) nonempty fun c mem => ?_
    cases first.symm.trans mem
    exact stop

/-- A word that is read as the name that it spells. -/
structure IsName (id : String) : Prop where
  identifier : isIdentifier id = true
  free : keywords.contains id = false
  normal : normalForm id.toList = id.toList
  inline : ∀ c ∈ id.toList, isInline c = true ∧ isBlank c = false

/-- A word of plain letters, digits and underscores is one unless it is reserved. -/
theorem isName_of_ascii (identifier : isIdentifier id = true) (free : keywords.contains id = false)
    (ascii : id.toList.all (·.toNat < 128) = true) : IsName id := by
  refine ⟨identifier, free, by rw [normalForm, if_pos ascii], fun c mem => ?_⟩
  obtain ⟨d, ds, chars, -, parts⟩ := identifier_chars identifier
  have plain : ∀ n < 128, isWordChar (Char.ofNat n) = true →
      isInline (Char.ofNat n) = true ∧ isBlank (Char.ofNat n) = false := by decide +kernel
  have own := plain c.toNat (of_decide_eq_true (all_eq_true.mp ascii c mem))
  rw [Char.ofNat_toNat] at own
  exact own (parts c (chars ▸ mem))

theorem IsName.ofWord (name : IsName id) : ofWord id = .name id := by
  rw [Token.ofWord, name.free, name.normal, String.ofList_toList]
  rfl

theorem IsName.ends (name : IsName id) : ∃ c ∈ id.toList.head?, ∃ d ∈ id.toList.getLast?,
    isIdentifierStart c = true ∧ isEdge c = true ∧ isEdge d = true := by
  obtain ⟨c, cs, chars, -, parts⟩ := identifier_chars name.identifier
  have start : isIdentifierStart c = true := by
    have word := name.identifier
    rw [isIdentifier, chars] at word
    exact (Bool.and_eq_true_iff.mp word).1
  have edge (d : Char) (mem : d ∈ id.toList) : isEdge d = true := by
    simp [isEdge, startsLine_of_isWordChar (parts d (chars ▸ mem)), (name.inline d mem).2]
  have nonempty : id.toList ≠ [] := by simp [chars]
  refine ⟨c, by rw [chars]; rfl, id.toList.getLast nonempty, getLast?_eq_some_getLast nonempty, start, ?_, ?_⟩
  · exact edge c (chars ▸ mem_cons_self)
  · exact edge _ (getLast_mem nonempty)

theorem IsName.nonempty (name : IsName id) : id.toList ≠ [] := by
  obtain ⟨c, head, -⟩ := name.ends
  rintro none
  simp [none] at head

theorem IsName.written (name : IsName id) : WrittenChain depth id.toList (.name id) := by
  obtain ⟨c, head, d, last, -, left, right⟩ := name.ends
  exact ⟨fun c mem => (name.inline c mem).1, ⟨c, head, d, last, left, right⟩, _, name.ofWord ▸ Lexes.word name.identifier,
    chain_name id⟩

theorem IsName.minus (name : IsName id) : WrittenItem depth ('-' :: id.toList) (.unary .minus (.name id)) := by
  obtain ⟨c, head, d, last, start, -, right⟩ := name.ends
  have part := isWordChar_of_isIdentifierStart start
  refine ⟨forall_mem_cons.mpr ⟨by decide, fun c mem => (name.inline c mem).1⟩,
    ⟨'-', rfl, d, ?_, by decide, right⟩, _,
    (Lexes.minus.append (name.ofWord ▸ Lexes.word name.identifier) name.nonempty fun c' mem => ?_).weaken le_rfl
      fun c ends => (endsNumber_iff.mp ends).1, reads_minus (by simp) fun _ _ => rfl⟩
  · exact (getLast?_append_of_ne_nil ['-'] name.nonempty).trans last
  · cases head.symm.trans mem
    simp [ne_of_isWordChar part (d := '=') (by decide), ne_of_isWordChar part (d := '>') (by decide)]

theorem Written.attribute (chain : WrittenChain depth cs e) {field : String} (name : IsName field) :
    WrittenChain depth (cs ++ '.' :: field.toList) (.attribute e field) := by
  obtain ⟨c, head, d, last, start, -, right⟩ := name.ends
  refine chain.trail (trails_field field)
    (Lexes.dot.append (name.ofWord ▸ Lexes.word name.identifier) name.nonempty fun c' mem => ?_) (fun _ => id)
    ⟨_, rfl, by decide⟩ ⟨d, ?_, right⟩ ?_
  · cases head.symm.trans mem
    exact start
  · exact (getLast?_append_of_ne_nil ['.'] name.nonempty).trans last
  · exact forall_mem_cons.mpr ⟨by decide, fun c mem => (name.inline c mem).1⟩

theorem inline_within {o c : Char} (left : isInline o = true) (inside : ∀ d ∈ cs, isInline d = true)
    (right : isInline c = true) : ∀ d ∈ o :: cs ++ [c], isInline d = true := by
  simp only [cons_append, forall_mem_cons, forall_mem_append]
  exact ⟨left, inside, right, forall_mem_nil _⟩

theorem Written.subscript (chain : WrittenChain (depth + 1) cs e) (index : WrittenItem depth ds i) :
    WrittenChain (depth + 1) (cs ++ ('[' :: ds ++ [']'])) (.subscript e i) := by
  obtain ⟨ts, lexes, form⟩ := index.tokens
  refine chain.trail (trails_index form) (lexes.square (by decide)) (fun _ _ => rfl) ⟨_, rfl, by decide⟩
    ⟨']', getLast?_concat, by decide⟩ ?_
  exact inline_within (by decide) index.inline (by decide)

/-- Texts with commas between them. -/
theorem lexes_divided (each : ∀ x ∈ items, Written endsNumber Form depth x.1 x.2) :
    ∃ parts : List (List Token × Expr), (∀ x ∈ parts, Form x.1 x.2) ∧ parts.map (·.2) = items.map (·.2) ∧
      Lexes depth endsNumber ([',', ' '].intercalate (items.map (·.1))) (divided (parts.map (·.1))) ∧
      ∀ c ∈ [',', ' '].intercalate (items.map (·.1)), isInline c = true := by
  cases items with
  | nil => exact ⟨[], by simp, rfl, .nil, by simp⟩
  | cons first items =>
    obtain ⟨own, others⟩ := forall_mem_cons.mp each
    obtain ⟨ts, lexes, form⟩ := own.tokens
    suffices more : ∀ (cs : List Char) (ts : List Token), Lexes depth endsNumber cs ts → (∀ c ∈ cs, isInline c = true) →
        ∃ parts : List (List Token × Expr), (∀ x ∈ parts, Form x.1 x.2) ∧ parts.map (·.2) = items.map (·.2) ∧
          Lexes depth endsNumber ([',', ' '].intercalate (cs :: items.map (·.1)))
            (ts ++ (parts.map (·.1)).flatMap (.op "," :: ·)) ∧
          ∀ c ∈ [',', ' '].intercalate (cs :: items.map (·.1)), isInline c = true by
      obtain ⟨parts, forms, same, all⟩ := more first.1 ts lexes own.inline
      exact ⟨(ts, first.2) :: parts, forall_mem_cons.mpr ⟨form, forms⟩, by simp [same], all⟩
    clear lexes own each
    intro cs ts lexes inline
    induction items generalizing cs ts with
    | nil => exact ⟨[], by simp, rfl, by simpa using lexes, by simpa using inline⟩
    | cons item items ih =>
      obtain ⟨own, others⟩ := forall_mem_cons.mp others
      obtain ⟨us, next, form⟩ := own.tokens
      have joined := lexes.append (Lexes.comma.append next own.nonempty (fun _ _ => rfl)) (by simp) (by simp; decide)
      obtain ⟨parts, forms, same, all⟩ := ih others _ _ joined (by
        simp only [forall_mem_append]
        exact ⟨inline, all_eq_true.mp (by decide), own.inline⟩)
      refine ⟨(us, item.2) :: parts, forall_mem_cons.mpr ⟨form, forms⟩, by simp [same], ?_⟩
      cases items <;> simpa [List.intercalate] using all

theorem Written.call (chain : WrittenChain (depth + 1) cs e) (items : List (List Char × Expr))
    (each : ∀ x ∈ items, WrittenItem depth x.1 x.2) :
    WrittenChain (depth + 1) (cs ++ ('(' :: [',', ' '].intercalate (items.map (·.1)) ++ [')']))
      (.call e (items.map (·.2)) []) := by
  obtain ⟨parts, forms, same, lexes, inline⟩ := lexes_divided each
  rw [← same]
  refine chain.trail (trails_call forms) (lexes.round (by decide)) (fun _ _ => rfl) ⟨_, rfl, by decide⟩
    ⟨')', getLast?_concat, by decide⟩ ?_
  exact inline_within (by decide) inline (by decide)

/-- The tokens of a list whose elements are of some form. -/
def Listed (Form : List Token → Expr → Prop) (ts : List Token) (e : Expr) : Prop :=
  Reads ts e ∧ ∃ parts : List (List Token × Expr), (∀ x ∈ parts, Form x.1 x.2) ∧ e = .list (parts.map (·.2)) ∧
    ts = .op "[" :: divided (parts.map (·.1)) ++ [.op "]"]

/-- The characters of numbers, other than digits. -/
def numberSigns : List Char := ['.', 'e', '+', '-']

theorem isInline_of_isDigit (digit : c.isDigit = true) : isInline c = true ∧ isEdge c = true := by
  have each : ∀ d < 10, isInline d.digitChar = true ∧ isEdge d.digitChar = true := by decide
  obtain ⟨small, same⟩ := Blade.digitChar_digitValue digit
  exact same ▸ each _ small

/-- A literal of a sign and a number without a sign. -/
def signedLiteral (negative : Bool) (value : Literal) : Expr :=
  if negative then .unary .minus (.literal value) else .literal value

/-- The tokens of a number, with or without a sign. -/
def Number (ts : List Token) (e : Expr) : Prop :=
  Reads ts e ∧ ∃ value, ts = [.number value] ∨ ts = [.op "-", .number value]

theorem written_number (negative : Bool) {value : Literal} (start : ∃ c ∈ cs.head?, c.isDigit = true)
    (last : ∃ d ∈ cs.getLast?, d.isDigit = true) (each : ∀ c ∈ cs, c.isDigit = true ∨ c ∈ numberSigns)
    (read : ∀ rest, (∀ c ∈ rest.head?, endsNumber c = true) → number? (cs ++ rest) = some (value, rest)) :
    Written endsNumber Number depth (if negative then '-' :: cs else cs) (signedLiteral negative value) := by
  obtain ⟨c, head, digit⟩ := start
  obtain ⟨d, tail, digit'⟩ := last
  obtain ⟨rest, chars⟩ := head?_eq_some_iff.mp head
  have inline : ∀ c ∈ cs, isInline c = true := fun c mem => (each c mem).elim
    (fun digit => (isInline_of_isDigit digit).1) (all_eq_true.mp (show numberSigns.all isInline = true by decide) c)
  have lexes : Lexes depth endsNumber cs [.number value] := Lexes.number ⟨c, rest, chars, digit⟩ read
  cases negative with
  | false =>
    exact ⟨inline, ⟨c, head, d, tail, (isInline_of_isDigit digit).2, (isInline_of_isDigit digit').2⟩, _, lexes,
      reads_number value, value, .inl rfl⟩
  | true =>
    refine ⟨forall_mem_cons.mpr ⟨by decide, inline⟩, ⟨'-', rfl, d, ?_, by decide, (isInline_of_isDigit digit').2⟩, _,
      Lexes.minus.append lexes (by simp [chars]) fun c' mem => ?_, reads_minus (by simp) fun _ _ => rfl, value, .inr rfl⟩
    · exact (getLast?_append_of_ne_nil ['-'] (by simp [chars])).trans tail
    · cases head.symm.trans mem
      simp [ne_of_isDigit digit (d := '=') rfl, ne_of_isDigit digit (d := '>') rfl]

theorem toList_toString (n : Int) :
    (toString n).toList = if n < 0 then '-' :: Nat.toDigits 10 n.natAbs else Nat.toDigits 10 n.natAbs := by
  cases n with
  | ofNat n => simp [toString, Int.repr, Nat.repr_eq_ofList_toDigits]
  | negSucc n => simp [toString, Int.repr, Nat.repr_eq_ofList_toDigits, Int.negSucc_lt_zero]

theorem written_int {n : Int} (writable : Numeral.isWritable n = true) :
    Written endsNumber Number depth (toString n).toList (signedLiteral (n < 0) (.int n.natAbs)) := by
  have digit (cs : List Char) (nonempty : cs = [] → False) (digits : ∀ c ∈ cs, c.isDigit = true) :
      (∃ c ∈ cs.head?, c.isDigit = true) ∧ ∃ d ∈ cs.getLast?, d.isDigit = true :=
    ⟨⟨_, head?_eq_some_head nonempty, digits _ (head_mem nonempty)⟩,
      ⟨_, getLast?_eq_some_getLast nonempty, digits _ (getLast_mem nonempty)⟩⟩
  have short {k : Nat} (positive : 0 < k) (bound : n.natAbs < Nat.pow 10 k) : (Nat.toDigits 10 n.natAbs).length ≤ k :=
    (Nat.length_toDigits_le_iff (by decide) positive).mpr bound
  obtain ⟨start, last⟩ := digit _ Nat.toDigits_ne_nil (isDigit_toDigits (n := n.natAbs))
  rw [toList_toString]
  simpa only [decide_eq_true_eq] using written_number (n < 0) start last
    (fun c mem => .inl (isDigit_toDigits c mem))
    fun rest => number?_toDigits (short (by decide) (of_decide_eq_true writable))

/-! ### Whole texts -/

theorem dropWhile_of_head {p : Char → Bool} (head : c ∈ cs.head?) (other : p c = false) : cs.dropWhile p = cs := by
  obtain ⟨tail, rfl⟩ := head?_eq_some_iff.mp head
  exact dropWhile_cons_of_neg (by simp [other])

theorem Written.trim (own : Written follows Form depth s.toList e) : Text.trim s = s := by
  obtain ⟨c, head, d, last, left, right⟩ := own.edges
  simp only [isEdge, Bool.and_eq_true, Bool.not_eq_true'] at left right
  rw [Text.trim, dropWhile_of_head head left.2, dropWhile_of_head (head?_reverse.trans last) right.2,
    reverse_reverse, String.ofList_toList]

theorem splitLines_of_line (line : '\n' ∉ cs) : splitLines cs = [cs] := by
  induction cs with
  | nil => rfl
  | cons c cs ih =>
    rw [mem_cons, not_or] at line
    have tail := ih line.2
    simp only [splitLines, foldr_cons] at tail ⊢
    rw [tail]
    split <;> simp_all

theorem dedent_of_line (line : '\n' ∉ s.toList) (head : c ∈ s.toList.head?)
    (left : isIndent c = false) : Text.dedent s = s := by
  obtain ⟨tail, chars⟩ := head?_eq_some_iff.mp head
  rw [Text.dedent, splitLines_of_line line]
  have whole : String.ofList (c :: tail) = s := by rw [← chars, String.ofList_toList]
  simp [chars, left, joinLines, whole]

/-- A text of its own gives its tokens and the end of the line. -/
theorem Written.scanned (own : Written endsNumber Form maxBrackets s.toList e) (reads : ∀ ts, Form ts e → Reads ts e) :
    ∃ ts, Form ts e ∧ ts.length ≤ s.length + 1 ∧ scanText s = ⟨ts ++ [.newline], none⟩ := by
  obtain ⟨c, head, d, -, left, -⟩ := own.edges
  obtain ⟨tail, chars⟩ := head?_eq_some_iff.mp head
  obtain ⟨ts, lexes, form⟩ := own.tokens
  have first := (reads ts form).start [.newline] ⟨_, _, rfl, by decide⟩
  refine ⟨ts, form, ?_, scanText_of_lexes chars (Bool.and_eq_true_iff.mp left).1 (fun mem => ?_) lexes le_rfl ?_⟩
  · obtain ⟨steps, short, few, -⟩ := lexes
    rw [← String.length_toList]
    omega
  · exact absurd (own.inline _ mem) (by decide)
  · rintro rfl
    simp [startsItem] at first

theorem Written.read (own : WrittenItem maxBrackets s.toList e) : Expr.read s = .ok e := by
  obtain ⟨c, head, d, -, left, -⟩ := own.edges
  obtain ⟨tail, chars⟩ := head?_eq_some_iff.mp head
  obtain ⟨ts, form, deep, scanned⟩ := own.scanned fun _ => id
  have outside (d : Char) (refused : isInline d = false) : d ∉ s.toList := fun mem => by
    simp [own.inline d mem] at refused
  have accepted : checkCharacters s = .ok () := by
    have whole : s.toList.any isSurrogate = false := by
      rw [any_eq_false]
      intro c mem surrogate
      simpa [isInline, surrogate] using own.inline c mem
    rw [checkCharacters, whole, contains_eq_mem, decide_eq_false (outside _ (by decide))]
    rfl
  have start := (Bool.and_eq_true_iff.mp left).1
  have closes : Closes [.newline] := ⟨_, _, rfl, by decide⟩
  have first := form.start [.newline] closes
  have read : (Grammar.expressions (.ofDepth (s.length + 1))).run (ts ++ [.newline]) = some (e, [.newline]) :=
    run_bind_of (form.read _ deep _ closes)
  have ends := endsIndented_of_line chars start (outside _ (by decide)) (outside _ (by decide))
  rw [Expr.read, accepted, scanned]
  simp only [bind, Except.bind]
  split
  · rename_i eq
    rw [eq] at first
    cases first
  · rw [read]
    simp [ends]
    rfl

end Bladewright.Host
