import Bladewright.Proofs.Host.Scanning
import Bladewright.Proofs.Outcome

/-!
Names as host expressions. An identifier is scanned as one token (`scanText_identifier`).
-/
namespace Bladewright.Host

open List Bladewright.Text Token

/-! ### Identifiers -/

variable {s : String} {c : Char}

theorem not_mem_identifier (word : isIdentifier s = true) {d : Char} (outside : isWordChar d = false) :
    d ∉ s.toList := by
  obtain ⟨c, cs, chars, -, parts⟩ := identifier_chars word
  rw [chars]
  exact fun mem => absurd (parts d mem) (by simp [outside])

theorem scanText_identifier (word : isIdentifier s = true) : scanText s = ⟨[ofWord s, .newline], none⟩ := by
  obtain ⟨c, cs, chars, -, parts⟩ := identifier_chars word
  exact scanText_of_lexes chars (startsLine_of_isWordChar (parts c mem_cons_self))
    (not_mem_identifier word (by decide)) (show Lexes 0 endsWord _ _ from .word word) (by decide) (by simp)

theorem endsIndented_identifier (word : isIdentifier s = true) : endsIndented s = false := by
  obtain ⟨c, cs, chars, -, parts⟩ := identifier_chars word
  exact endsIndented_of_line chars (startsLine_of_isWordChar (parts c mem_cons_self))
    (not_mem_identifier word (by decide)) (not_mem_identifier word (by decide))

def isConstantOrNone (text : String) : Bool :=
  match Expr.read text with
  | .ok (.literal _) | .error _ => true
  | .ok _ => false

theorem read_identifier (word : isIdentifier s = true) {e : Expr} (read : Expr.read s = .ok e) :
    (∃ id, e = .name id) ∨ ∃ l, e = .literal l := by
  by_cases reserved : s ∈ keywords
  · have constants : ∀ k ∈ keywords, isConstantOrNone k = true := by decide +kernel
    have constant := constants s reserved
    rw [isConstantOrNone, read] at constant
    cases e with
    | literal l => exact .inr ⟨l, rfl⟩
    | _ => cases constant
  · have token : ofWord s = .name (String.ofList (normalForm s.toList)) := by
      rw [ofWord, if_neg (by simpa using reserved)]
    rw [Expr.read, scanText_identifier word, token] at read
    obtain ⟨_, -, read⟩ := Outcome.of_bind read
    change (if endsIndented s then throw .indentation else pure (.name _) : Except SyntaxFault Expr) = .ok e at read
    rw [endsIndented_identifier word] at read
    cases read
    exact .inl ⟨_, rfl⟩

/-! ### Plain words -/

def isWordPart (c : Char) : Bool := c.isAlphanum || c == '_'

theorem toNat_lt_of_isWordPart (part : isWordPart c = true) : c.toNat < 128 := by
  simp only [isWordPart, Char.isAlphanum, isAlpha_iff, Char.isDigit, Bool.or_eq_true, Bool.and_eq_true,
    decide_eq_true_eq, beq_iff_eq, UInt32.le_iff_toNat_le] at part
  rcases part with ((⟨_, upper⟩ | ⟨_, lower⟩) | ⟨_, digit⟩) | rfl
  · exact Nat.lt_of_le_of_lt upper (by decide)
  · exact Nat.lt_of_le_of_lt lower (by decide)
  · exact Nat.lt_of_le_of_lt digit (by decide)
  · decide

theorem isSurrogate_of_isWordPart (part : isWordPart c = true) : isSurrogate c = false := by
  unfold isSurrogate surrogateShift
  rw [Bool.and_eq_false_iff, decide_eq_false_iff_not, Nat.not_le]
  exact .inl (Nat.lt_of_lt_of_le (toNat_lt_of_isWordPart part) (Nat.le_add_right_of_le (by decide)))

theorem checkCharacters_word (parts : ∀ c ∈ s.toList, isWordPart c = true) : checkCharacters s = .ok () := by
  have plain : s.toList.any isSurrogate = false := by
    rw [any_eq_false]
    intro c mem
    rw [isSurrogate_of_isWordPart (parts c mem)]
    exact Bool.false_ne_true
  have visible : s.toList.contains '\x00' = false := by
    rw [contains_eq_mem, decide_eq_false_iff_not]
    intro mem
    cases parts _ mem
  rw [checkCharacters, plain, visible]
  rfl

theorem read_word (parts : ∀ c ∈ s.toList, isWordPart c = true) (word : isIdentifier s = true)
    (free : s ∉ keywords) : Expr.read s = .ok (.name s) := by
  have token : ofWord s = .name s := by
    have small : s.toList.all (·.toNat < 128) = true := by
      simpa using fun d mem => toNat_lt_of_isWordPart (parts d mem)
    rw [ofWord, if_neg (by simpa using free), normalForm, if_pos small, String.ofList_toList]
  rw [Expr.read, checkCharacters_word parts, scanText_identifier word, token]
  show ((if endsIndented s = true then throw .indentation else pure (.name s)) : Except SyntaxFault Expr) = _
  rw [endsIndented_identifier word]
  rfl

end Bladewright.Host
