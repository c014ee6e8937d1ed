import Bladewright.Host.Grammar
import Bladewright.Proofs.Blade.NameForms
import Mathlib.Data.List.TakeWhile

/-!
Texts that are scanned alike wherever they stand.
-/
namespace Bladewright.Host

open List Bladewright.Text

namespace Token

open Bladewright.Numeral

/-! ### Characters -/

variable {d : Char} {rest tail : List Char} {n : Nat}

theorem ne_of_isWordChar {c : Char} (part : isWordChar c = true) (other : isWordChar d = false) : c ≠ d := by
  rintro rfl
  rw [part] at other
  cases other

theorem isWordChar_of_isIdentifierStart {c : Char} (start : isIdentifierStart c = true) : isWordChar c = true := by
  unfold isIdentifierStart at start
  unfold isWordChar
  split at start
  · rw [Bool.or_eq_true] at start
    rcases start with letter | underscore
    · simp [Char.isAlphanum, letter]
    · simp [underscore]
  · simp_all

theorem isWordChar_of_isIdentifierPart {c : Char} (part : isIdentifierPart c = true) : isWordChar c = true := by
  unfold isIdentifierPart at part
  unfold isWordChar
  split at part
  · simp_all
  · simp_all

theorem isAlpha_iff {c : Char} : c.isAlpha = true ↔
    ('A'.toNat ≤ c.toNat ∧ c.toNat ≤ 'Z'.toNat) ∨ ('a'.toNat ≤ c.toNat ∧ c.toNat ≤ 'z'.toNat) := by
  have bounds : c.isAlpha = (decide ('A'.val ≤ c.val ∧ c.val ≤ 'Z'.val) ||
      (decide ('a'.val ≤ c.val) && decide (c.val ≤ 'z'.val))) := rfl
  simp only [bounds, Bool.or_eq_true, Bool.and_eq_true, decide_eq_true_eq, UInt32.le_iff_toNat_le]
  rfl

theorem isDigit_of_isIdentifierStart {c : Char} (start : isIdentifierStart c = true) : c.isDigit = false := by
  simp only [Char.isDigit, Bool.and_eq_false_iff, decide_eq_false_iff_not, UInt32.le_iff_toNat_le]
  right
  intro digit
  have small : c.toNat < 128 := Nat.lt_of_le_of_lt digit (by decide)
  rw [isIdentifierStart, if_pos small] at start
  simp only [Bool.or_eq_true, isAlpha_iff, beq_iff_eq] at start
  rcases start with (⟨upper, _⟩ | ⟨lower, _⟩) | rfl
  · exact absurd (Nat.le_trans upper digit) (by decide)
  · exact absurd (Nat.le_trans lower digit) (by decide)
  · exact absurd digit (by decide)

def endsWord (c : Char) : Bool := !isWordChar c && c != '\'' && c != '"'

def endsNumber (c : Char) : Bool := endsWord c && c != '.'

theorem ne_of_isDigit {c : Char} (digit : c.isDigit = true) (other : d.isDigit = false) : c ≠ d := by
  rintro rfl
  simp [digit] at other

theorem endsWord_iff {c : Char} : endsWord c = true ↔ isWordChar c = false ∧ c ≠ '\'' ∧ c ≠ '"' := by
  simp [endsWord, and_assoc]

theorem endsNumber_iff {c : Char} : endsNumber c = true ↔ endsWord c = true ∧ c ≠ '.' := by
  simp [endsNumber]

theorem isDigit_of_endsWord {c : Char} (ends : endsWord c = true) : c.isDigit = false := by
  have other := (endsWord_iff.mp ends).1
  simp only [isWordChar, Char.isAlphanum, Bool.or_eq_false_iff] at other
  exact other.1.1.2

theorem identifier_chars {s : String} (word : isIdentifier s = true) :
    ∃ c cs, s.toList = c :: cs ∧ c.isDigit = false ∧ ∀ d ∈ c :: cs, isWordChar d = true := by
  unfold isIdentifier at word
  split at word
  · cases word
  · rename_i c cs chars
    rw [Bool.and_eq_true, all_eq_true] at word
    refine ⟨c, cs, chars, isDigit_of_isIdentifierStart word.1, forall_mem_cons.mpr ⟨?_, fun d mem => ?_⟩⟩
    · exact isWordChar_of_isIdentifierStart word.1
    · exact isWordChar_of_isIdentifierPart (word.2 d mem)

/-! ### Numerals -/

theorem digitRun_append {ds : List Char} (digits : ∀ c ∈ ds, c.isDigit = true)
    (stop : ∀ c ∈ rest.head?, c.isDigit = false ∧ c ≠ '_') : digitRun Char.isDigit (ds ++ rest) = some (ds, rest) := by
  induction ds with
  | nil =>
    cases rest with
    | nil => rfl
    | cons c rest => simp [digitRun, stop c rfl]
  | cons d ds ih =>
    rw [forall_mem_cons] at digits
    have mark := ne_of_isDigit digits.1 (d := '_') rfl
    simp [digitRun, mark, digits.1, ih digits.2]

/-- What follows the leading digits of a number decides what the number is, unless it makes a zero a prefix. -/
theorem numberPart?_append {ds : List Char} (nonempty : ds ≠ []) (digits : ∀ c ∈ ds, c.isDigit = true)
    (stop : ∀ c ∈ tail.head?, c.isDigit = false ∧ c ∉ ['_', 'x', 'X', 'o', 'O', 'b', 'B']) :
    numberPart? (ds ++ tail) = afterInteger ds (ds.head? == some '0') tail := by
  have run : digitRun Char.isDigit (ds ++ tail) = some (ds, tail) :=
    digitRun_append digits fun c head => ⟨(stop c head).1, fun same => (stop c head).2 (by simp [same])⟩
  obtain ⟨d, ds, rfl⟩ := exists_cons_of_ne_nil nonempty
  have point := ne_of_isDigit (digits d mem_cons_self) (d := '.') rfl
  unfold numberPart?
  split
  · rename_i c rest text
    obtain ⟨rfl, second⟩ := List.cons.inj text
    have letter : c ∉ ['x', 'X', 'o', 'O', 'b', 'B'] := fun mem => by
      cases ds with
      | nil => exact (stop c (by rw [show tail = c :: rest from second]; rfl)).2 (mem_cons_of_mem _ mem)
      | cons e ds =>
        have digit := digits c (by rw [← (List.cons.inj second).1]; simp)
        simp only [mem_cons, not_mem_nil, or_false] at mem
        rcases mem with rfl | rfl | rfl | rfl | rfl | rfl <;> cases digit
    simp only [mem_cons, not_or, not_mem_nil, not_false_eq_true, and_true] at letter
    rw [← text, run]
    simp [letter]
  · rename_i text
    exact absurd (List.cons.inj text).1 point
  · rw [run]
    rfl

theorem exponentPart_of_endsWord (next : ∀ c ∈ rest.head?, endsWord c = true) :
    exponentPart rest = some (none, rest) := by
  rcases rest with _ | ⟨c, _ | ⟨d, rest⟩⟩
  · rfl
  · rfl
  · have letter : c ≠ 'e' ∧ c ≠ 'E' := by constructor <;> rintro rfl <;> simp [endsWord, isWordChar] at next
    simp [exponentPart, letter]

theorem numberEnds_of_endsWord (next : ∀ c ∈ rest.head?, endsWord c = true) : numberEnds rest = true := by
  cases rest with
  | nil => rfl
  | cons c rest =>
    have own := next c rfl
    simp only [endsWord, isWordChar, Bool.and_eq_true, Bool.not_eq_true'] at own
    simp [numberEnds, own.1.1]

/-- A number is read part by part. -/
theorem number?_of_parts {whole middle : List Char} {fraction : Option (List Char)} {exponent : Option Int}
    {literal : Literal} (nonempty : whole ≠ []) (digits : ∀ c ∈ whole, c.isDigit = true)
    (stop : ∀ c ∈ tail.head?, c.isDigit = false ∧ c ∉ ['_', 'x', 'X', 'o', 'O', 'b', 'B'])
    (point : fractionPart tail = some (fraction, middle)) (power : exponentPart middle = some (exponent, rest))
    (next : ∀ c ∈ rest.head?, endsWord c = true)
    (real : realLiteral whole (whole.head? == some '0') fraction exponent
      (decimalValue (whole ++ fraction.getD []) (exponent.getD 0 - (fraction.getD []).length)) = some literal) :
    number? (whole ++ tail) = some (literal, rest) := by
  have letter : ¬(rest.head? = some 'j' || rest.head? = some 'J') = true := by
    rw [Bool.or_eq_true, decide_eq_true_eq, decide_eq_true_eq]
    rintro (head | head) <;> cases next _ head
  have read : afterInteger whole (whole.head? == some '0') tail = some (literal, rest) := by
    simp only [afterInteger, point, power, Option.bind_some, if_neg letter, real, Option.map_some]
  rw [number?, numberPart?_append nonempty digits stop, read, Option.filter_some, if_pos (numberEnds_of_endsWord next)]

theorem isDigit_toDigits : ∀ c ∈ Nat.toDigits 10 n, c.isDigit = true := fun _ =>
  Nat.isDigit_of_mem_toDigits (by decide) (by decide)

theorem positionalValue_eq {ds : List Char} (digits : ∀ c ∈ ds, c.isDigit = true) :
    positionalValue 10 ds = Nat.ofDigitChars 10 ds 0 :=
  foldl_ext _ _ _ fun value c mem => by simp only [digitValue, digits c mem, if_true, Nat.mul_comm]

theorem positionalValue_toDigits (n : Nat) : positionalValue 10 (Nat.toDigits 10 n) = n := by
  rw [positionalValue_eq isDigit_toDigits, Nat.ofDigitChars_toDigits (by decide) (by decide)]

theorem number?_toDigits (short : (Nat.toDigits 10 n).length ≤ digitLimit)
    (next : ∀ c ∈ rest.head?, endsNumber c = true) :
    number? (Nat.toDigits 10 n ++ rest) = some (.int n, rest) := by
  have word : ∀ c ∈ rest.head?, endsWord c = true := fun c head => (endsNumber_iff.mp (next c head)).1
  have whole : fractionPart rest = some (none, rest) := by
    rcases rest with _ | ⟨c, rest⟩
    · rfl
    · simp [fractionPart, (endsNumber_iff.mp (next c rfl)).2]
  refine number?_of_parts Nat.toDigits_ne_nil isDigit_toDigits (fun c head => ⟨isDigit_of_endsWord (word c head), ?_⟩)
    whole (exponentPart_of_endsWord word) word ?_
  · intro mem
    simp only [mem_cons, not_mem_nil, or_false] at mem
    rcases mem with rfl | rfl | rfl | rfl | rfl | rfl | rfl <;> cases word _ head
  · rcases Nat.eq_zero_or_pos n with rfl | positive
    · rfl
    · have numeral := Blade.isIndexNumeral_toDigits positive
      have zeros : ((Nat.toDigits 10 n).head? == some '0') = false := by
        cases digits : Nat.toDigits 10 n with
        | nil => rfl
        | cons c cs =>
          rw [digits, Blade.isIndexNumeral, Bool.and_eq_true] at numeral
          rw [List.head?_cons, beq_eq_false_iff_ne, ne_eq, Option.some.injEq]
          rintro rfl
          cases numeral.1
      simp only [realLiteral, zeros, Option.isSome_none, Bool.or_self, Bool.false_eq_true, if_false, not_lt.mpr short,
        positionalValue_toDigits]

/-! ### Texts and tokens -/

/-- A text gives tokens before any text that starts with a character it may be followed by, with `depth` levels of
brackets left to open. -/
def Lexes (depth : Nat) (follows : Char → Bool) (cs : List Char) (ts : List Token) : Prop :=
  ∃ steps ≤ cs.length, ts.length ≤ steps ∧ ∀ (fuel : Nat) (place : Place) (pending : Bool) (rest : List Char),
    place.brackets.length + depth ≤ maxBrackets → (∀ c ∈ rest.head?, follows c = true) →
      scan (steps + fuel) place false pending (cs ++ rest) =
        (scan fuel place false (pending || !ts.isEmpty) rest).after ts

namespace Lexes

variable {depth depth' : Nat} {follows follows' : Char → Bool} {cs ds : List Char} {ts us : List Token}

theorem nil : Lexes depth follows [] [] := ⟨0, by simp, by simp, fun _ _ _ _ _ _ => by simp [Scanned.after]⟩

theorem weaken (own : Lexes depth follows cs ts) (deeper : depth ≤ depth')
    (fewer : ∀ c, follows' c = true → follows c = true) : Lexes depth' follows' cs ts := by
  obtain ⟨steps, short, few, scans⟩ := own
  exact ⟨steps, short, few, fun fuel place pending rest room next =>
    scans fuel place pending rest (by omega) fun c head => fewer c (next c head)⟩

theorem append (first : Lexes depth follows cs ts) (second : Lexes depth follows' ds us) (nonempty : ds ≠ [])
    (meets : ∀ c ∈ ds.head?, follows c = true) : Lexes depth follows' (cs ++ ds) (ts ++ us) := by
  obtain ⟨steps, short, few, scans⟩ := first
  obtain ⟨steps', short', few', scans'⟩ := second
  refine ⟨steps + steps', by simp; omega, by simp; omega, fun fuel place pending rest room next => ?_⟩
  have head : (ds ++ rest).head? = ds.head? := List.head?_append_of_ne_nil _ nonempty
  rw [append_assoc, Nat.add_assoc, scans _ _ _ _ room (by rwa [head]), scans' _ _ _ _ room next]
  cases ts <;> simp [Scanned.after]

/-- Brackets take up one level. -/
theorem within {o c : Char} {left right : String}
    (opens : ∀ fuel place pending cs, scan (fuel + 1) place false pending (o :: cs) =
      if place.brackets.length < maxBrackets then
        (scan fuel ⟨place.indents, right :: place.brackets⟩ false true cs).after [.op left] else .stop .malformed)
    (closes : ∀ fuel indents brackets pending cs,
      scan (fuel + 1) ⟨indents, right :: brackets⟩ false pending (c :: cs) =
        (scan fuel ⟨indents, brackets⟩ false true cs).after [.op right])
    (inside : Lexes depth follows cs ts) (next : follows c = true) :
    Lexes (depth + 1) (fun _ => true) (o :: cs ++ [c]) (.op left :: ts ++ [.op right]) := by
  obtain ⟨steps, short, few, scans⟩ := inside
  refine ⟨steps + 2, by simpa using short, by simpa using few, fun fuel place pending rest room _ => ?_⟩
  rw [show steps + 2 + fuel = steps + (fuel + 1) + 1 by omega, append_assoc, cons_append, opens,
    if_pos (by omega), scans _ _ _ _ (by simp; omega) (by simpa using next), singleton_append, closes]
  simp [Scanned.after]

theorem round (inside : Lexes depth follows cs ts) (next : follows ')' = true) :
    Lexes (depth + 1) (fun _ => true) ('(' :: cs ++ [')']) (.op "(" :: ts ++ [.op ")"]) :=
  inside.within (fun _ _ _ _ => rfl) (fun _ _ _ _ _ => rfl) next

theorem square (inside : Lexes depth follows cs ts) (next : follows ']' = true) :
    Lexes (depth + 1) (fun _ => true) ('[' :: cs ++ [']']) (.op "[" :: ts ++ [.op "]"]) :=
  inside.within (fun _ _ _ _ => rfl) (fun _ _ _ _ _ => rfl) next

theorem comma : Lexes depth (fun _ => true) [',', ' '] [.op ","] :=
  ⟨2, by simp, by simp, fun fuel place pending rest _ _ => by
    rw [Nat.add_comm, isEmpty_cons, Bool.not_false, Bool.or_true]
    rfl⟩

variable {t : Token}

theorem token (nonempty : cs ≠ []) (scans : ∀ fuel place pending rest, (∀ c ∈ rest.head?, follows c = true) →
      scan (fuel + 1) place false pending (cs ++ rest) = (scan fuel place false true rest).after [t]) :
    Lexes depth follows cs [t] := by
  refine ⟨1, length_pos_iff.mpr nonempty, le_rfl, fun fuel place pending rest _ next => ?_⟩
  rw [Nat.add_comm, scans fuel place pending rest next, isEmpty_cons, Bool.not_false, Bool.or_true]

theorem minus : Lexes depth (fun c => c != '=' && c != '>') ['-'] [.op "-"] := by
  refine token (by simp) fun fuel place pending rest next => ?_
  have found : (operators.find? fun o => o.toList.isPrefixOf ('-' :: rest)) = some "-" := by
    cases rest with
    | nil => rfl
    | cons c rest =>
      have ends : '=' ≠ c ∧ '>' ≠ c := by constructor <;> rintro rfl <;> simp at next
      simp [operators, List.isPrefixOf, ends]
  simp only [scan, cons_append, nil_append, found]
  rfl

theorem dot : Lexes depth isIdentifierStart ['.'] [.op "."] := by
  refine token (by simp) fun fuel place pending rest next => ?_
  have found : (operators.find? fun o => o.toList.isPrefixOf ('.' :: rest)) = some "." := by
    cases rest with
    | nil => rfl
    | cons c rest =>
      have ends : '.' ≠ c := by rintro rfl; simp [isIdentifierStart] at next
      simp [operators, List.isPrefixOf, ends]
  have digit : (rest.head?.map Char.isDigit).getD false = false := by
    cases rest with
    | nil => rfl
    | cons c rest => exact isDigit_of_isIdentifierStart (next c rfl)
  have other : lexeme? ('.' :: rest) = none := by
    simp only [lexeme?, digit]
    rfl
  simp only [scan, cons_append, nil_append, found, other]
  rfl

/-- A number or a word is what its first character makes it. -/
theorem lexeme (start : ∃ c rest, cs = c :: rest ∧ isWordChar c = true)
    (read : ∀ rest, (∀ c ∈ rest.head?, follows c = true) → lexeme? (cs ++ rest) = some (some (t, rest))) :
    Lexes depth follows cs [t] := by
  obtain ⟨c, cs, rfl, part⟩ := start
  refine token (by simp) fun fuel place pending rest next => ?_
  have other (d : Char) (outside : isWordChar d = false) : ¬ c = d := ne_of_isWordChar part outside
  have found := read rest next
  rw [cons_append] at found ⊢
  simp only [scan, other ' ' (by decide), other '\t' (by decide), other '\x0c' (by decide), other '\n' (by decide),
    other '#' (by decide), other '\\' (by decide), decide_false, Bool.or_false, Bool.false_eq_true, if_false, found]

theorem word {s : String} (identifier : isIdentifier s = true) : Lexes depth endsWord s.toList [ofWord s] := by
  obtain ⟨c, cs, chars, digit, parts⟩ := identifier_chars identifier
  have part := parts c mem_cons_self
  refine lexeme ⟨c, cs, chars, part⟩ fun rest next => ?_
  have stop : ∀ d ∈ rest.head?, isWordChar d = false ∧ d ≠ '\'' ∧ d ≠ '"' := fun d head => endsWord_iff.mp (next d head)
  have taken : (s.toList ++ rest).takeWhile isWordChar = s.toList := by
    rw [takeWhile_append_of_pos (chars ▸ parts)]
    cases rest <;> simp_all
  have left : (s.toList ++ rest).dropWhile isWordChar = rest := by
    rw [dropWhile_append_of_pos (chars ▸ parts)]
    cases rest <;> simp_all
  have plain : rest.head? ≠ some '\'' ∧ rest.head? ≠ some '"' :=
    ⟨fun head => (stop _ head).2.1 rfl, fun head => (stop _ head).2.2 rfl⟩
  have read : word? (s.toList ++ rest) = some (ofWord s, rest) := by
    simp [word?, taken, left, plain, identifier]
  rw [chars, cons_append] at read ⊢
  simp [lexeme?, digit, read, part, ne_of_isWordChar part (by decide : isWordChar '.' = false),
    ne_of_isWordChar part (by decide : isWordChar '\'' = false), ne_of_isWordChar part (by decide : isWordChar '"' = false)]

theorem number {value : Literal} (start : ∃ c rest, cs = c :: rest ∧ c.isDigit = true)
    (read : ∀ rest, (∀ c ∈ rest.head?, endsNumber c = true) → number? (cs ++ rest) = some (value, rest)) :
    Lexes depth endsNumber cs [.number value] := by
  obtain ⟨c, cs, rfl, digit⟩ := start
  refine lexeme ⟨c, cs, rfl, by simp [isWordChar, Char.isAlphanum, digit]⟩ fun rest next => ?_
  have found := read rest next
  rw [cons_append] at found ⊢
  simp [lexeme?, digit, found]

end Lexes

/-! ### Whole texts -/

theorem normalLines_of_not_mem {cs : List Char} (plain : '\r' ∉ cs) : normalLines cs = cs := by
  induction cs with
  | nil => rfl
  | cons c cs ih =>
    rw [mem_cons, not_or] at plain
    rw [normalLines, ih plain.2]
    all_goals simp [Ne.symm plain.1]

/-- The first characters of lines that may hold blanks and comments only, or go on with the line before. -/
def lineFillers : List Char := [' ', '\t', '\x0c', '\\', '\n', '#']

def startsLine (c : Char) : Bool := !lineFillers.contains c

theorem startsLine_of_isWordChar {c : Char} (part : isWordChar c = true) : startsLine c = true := by
  have each : ∀ d ∈ lineFillers, (!isWordChar d) = true := all_eq_true.mp (by decide)
  simp only [startsLine, Bool.not_eq_true', contains_eq_mem, decide_eq_false_iff_not]
  exact fun mem => absurd (each c mem) (by simp [part])

theorem indentation_startsLine {c : Char} (start : startsLine c = true) (cs : List Char) :
    indentation 0 0 0 (c :: cs) = some (0, 0, c :: cs) := by
  simp only [startsLine, lineFillers, Bool.not_eq_true', contains_eq_mem, decide_eq_false_iff_not, mem_cons, not_or] at start
  rw [indentation] <;> simp [start]

end Token

open Token

variable {c : Char} {s : String}

theorem scanText_of_lexes {cs : List Char} (text : s.toList = c :: cs)
    (start : startsLine c = true) (plain : '\r' ∉ s.toList) {depth : Nat} {follows : Char → Bool} {ts : List Token}
    (lexes : Lexes depth follows s.toList ts) (room : depth ≤ maxBrackets) (nonempty : ts ≠ []) :
    scanText s = ⟨ts ++ [.newline], none⟩ := by
  obtain ⟨steps, short, -, scans⟩ := lexes
  have first : scan (2 * s.toList.length + 2) {} true false s.toList =
      scan (2 * s.toList.length + 1) {} false false s.toList := by
    rw [text, scan, indentation_startsLine start]
    simp only [startsLine, lineFillers, Bool.not_eq_true', contains_eq_mem, decide_eq_false_iff_not, mem_cons,
      not_or] at start
    split
    · rename_i none
      cases none
    · rename_i empty
      cases empty
    · rename_i found
      cases found
      exact absurd rfl start.2.2.2.2.1
    · rename_i found
      cases found
      exact absurd rfl start.2.2.2.2.2.1
    · rename_i found
      cases found
      rfl
  have rest := scans (2 * s.toList.length + 1 - steps - 1 + 1) {} false [] (by simpa using room) (by simp)
  rw [append_nil, show steps + (2 * s.toList.length + 1 - steps - 1 + 1) = 2 * s.toList.length + 1 by omega] at rest
  rw [scanText, normalLines_of_not_mem plain, first, rest]
  simp [scan, Scanned.after, nonempty]

theorem endsIndented_of_line {cs : List Char} (text : s.toList = c :: cs)
    (start : startsLine c = true) (plain : '\r' ∉ s.toList) (line : '\n' ∉ s.toList) : endsIndented s = false := by
  have whole : s.toList.reverse.takeWhile (· != '\n') = s.toList.reverse := by
    rw [takeWhile_eq_self_iff]
    intro d mem
    rw [bne_iff_ne]
    rintro rfl
    exact line (mem_reverse.mp mem)
  rw [endsIndented, normalLines_of_not_mem plain, whole, reverse_reverse, text, indentation_startsLine start]

end Bladewright.Host
