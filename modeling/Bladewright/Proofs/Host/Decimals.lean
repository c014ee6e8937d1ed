import Bladewright.Proofs.Host.Written
import Bladewright.Proofs.Numeral.Shortest

/-!
Texts of doubles. However a double is laid out, with a point or with an exponent, its text is a numeral that is read
part by part, and the digits read give the double back.
-/
namespace Bladewright.Host

open List Numeral Token

namespace Token

variable {rest : List Char}

theorem isDigit_zeros (k : Nat) : ∀ c ∈ zeros k, c.isDigit = true := fun _ mem =>
  eq_of_mem_replicate mem ▸ by decide

theorem zeros_succ (k : Nat) : zeros (k + 1) = zeros k ++ ['0'] := replicate_succ'

theorem positionalValue_zeros_append (k : Nat) (ds : List Char) :
    positionalValue 10 (zeros k ++ ds) = positionalValue 10 ds := by
  induction k with
  | zero => rfl
  | succ k ih => exact ih

theorem positionalValue_append_zeros (ds : List Char) (k : Nat) :
    positionalValue 10 (ds ++ zeros k) = positionalValue 10 ds * 10 ^ k := by
  induction k with
  | zero => simp [zeros]
  | succ k ih =>
    rw [zeros_succ, ← append_assoc, positionalValue, foldl_append, ← positionalValue, ih, pow_succ, ← mul_assoc]
    rfl

theorem exponentPart_signed (k : Int) (next : ∀ c ∈ rest.head?, endsWord c = true) :
    exponentPart ('e' :: signedExponent k ++ rest) = some (some k, rest) := by
  simp only [signedExponent]
  generalize 2 - (Nat.toDigits 10 k.natAbs).length = width
  have each : ∀ c ∈ zeros width ++ Nat.toDigits 10 k.natAbs, c.isDigit = true :=
    forall_mem_append.mpr ⟨isDigit_zeros width, isDigit_toDigits⟩
  have value := (positionalValue_zeros_append width _).trans (positionalValue_toDigits k.natAbs)
  have run := digitRun_append each fun c head =>
    ⟨isDigit_of_endsWord (next c head), fun same => absurd (next c head) (by rw [same]; decide)⟩
  obtain ⟨d, ds, eq⟩ := exists_cons_of_ne_nil
    (show zeros width ++ Nat.toDigits 10 k.natAbs ≠ [] by simp [Nat.toDigits_ne_nil])
  have first := each d (eq ▸ mem_cons_self)
  rw [eq] at run value ⊢
  rw [cons_append] at run
  rcases lt_or_ge k 0 with negative | nonneg
  · simp [exponentPart, negative, first, run, value, abs_of_neg negative]
  · simp [exponentPart, not_lt.mpr nonneg, first, run, value, abs_of_nonneg nonneg]

/-- The text of a number of digits, with a fraction and an exponent where there are some. -/
def numeral (whole : List Char) (fraction : Option (List Char)) (exponent : Option Int) : List Char :=
  whole ++ (fraction.elim [] ('.' :: ·) ++ exponent.elim [] ('e' :: signedExponent ·))

/-- A text is a numeral that reads as a float. -/
def IsNumeral (cs : List Char) (value : Floating) : Prop :=
  ∃ whole fraction exponent, cs = numeral whole fraction exponent ∧ whole ≠ [] ∧ (∀ c ∈ whole, c.isDigit = true) ∧
    (∀ ds ∈ fraction, ds ≠ [] ∧ ∀ c ∈ ds, c.isDigit = true) ∧ (fraction.isSome || exponent.isSome) = true ∧
    decimalValue (whole ++ fraction.getD []) (exponent.getD 0 - (fraction.getD []).length) = value

theorem IsNumeral.number? {cs : List Char} {value : Floating} (own : IsNumeral cs value) (rest : List Char)
    (next : ∀ c ∈ rest.head?, endsNumber c = true) : number? (cs ++ rest) = some (.float value, rest) := by
  obtain ⟨whole, fraction, exponent, rfl, nonempty, digits, digits', real, rfl⟩ := own
  have word : ∀ c ∈ rest.head?, endsWord c = true := fun c head => (endsNumber_iff.mp (next c head)).1
  obtain ⟨middle, power⟩ : ∃ m, m = exponent.elim [] ('e' :: signedExponent ·) ++ rest := ⟨_, rfl⟩
  have read : exponentPart middle = some (exponent, rest) := by
    cases exponent with
    | none => exact power ▸ exponentPart_of_endsWord word
    | some k => exact power ▸ exponentPart_signed k word
  -- a fraction ends before an exponent as well as before the end of the number
  have stop : ∀ c ∈ middle.head?, c.isDigit = false ∧ c ≠ '_' ∧ c ≠ '.' := by
    cases exponent with
    | none =>
      intro c head
      rw [power] at head
      have ends := next c head
      refine ⟨isDigit_of_endsWord (endsNumber_iff.mp ends).1, ?_, (endsNumber_iff.mp ends).2⟩
      rintro rfl
      cases ends
    | some k => simp [power]
  have point : fractionPart (fraction.elim [] ('.' :: ·) ++ middle) = some (fraction, middle) := by
    cases fraction with
    | none =>
      cases middle with
      | nil => rfl
      | cons c middle => simp [fractionPart, (stop c rfl).2.2]
    | some ds =>
      obtain ⟨nonempty, each⟩ := digits' ds rfl
      obtain ⟨d, ds, rfl⟩ := exists_cons_of_ne_nil nonempty
      have mark := ne_of_isDigit (each d mem_cons_self) (d := '_') rfl
      have run := digitRun_append each fun c head => ⟨(stop c head).1, (stop c head).2.1⟩
      simp only [cons_append] at run
      simp [fractionPart, mark, run]
  rw [numeral, append_assoc, append_assoc, ← power]
  refine number?_of_parts nonempty digits ?_ point read word ?_
  · intro c head
    cases fraction with
    | some ds => cases head; decide
    | none =>
      cases exponent with
      | some k => rw [power] at head; cases head; decide
      | none => cases real
  · rw [realLiteral, if_pos real]

variable {m : Nat}

theorem isNumeral_withPoint {split : Nat} (left : 0 < split) (right : split < digitCount m) (exponent : Option Int) :
    IsNumeral (withPoint (Nat.toDigits 10 m) split ++ exponent.elim [] ('e' :: signedExponent ·))
      (Decimal.round binary64 ⟨m, exponent.getD 0 - (digitCount m - split)⟩) := by
  have inside {c : Char} (mem : c ∈ (Nat.toDigits 10 m).take split ++ (Nat.toDigits 10 m).drop split) :
      c.isDigit = true := isDigit_toDigits c (take_append_drop split _ ▸ mem)
  refine ⟨(Nat.toDigits 10 m).take split, some ((Nat.toDigits 10 m).drop split), exponent, ?_, ?_, ?_, ?_, rfl, ?_⟩
  · simp [numeral, withPoint]
  · exact ne_nil_of_length_pos (by rw [length_take, ← digitCount]; omega)
  · exact fun c mem => inside (mem_append_left _ mem)
  · rintro _ ⟨⟩
    refine ⟨ne_nil_of_length_pos (by rw [length_drop, ← digitCount]; omega), fun c mem => ?_⟩
    exact inside (mem_append_right _ mem)
  · rw [decimalValue, Option.getD_some, take_append_drop, positionalValue_toDigits, length_drop, ← digitCount,
      Nat.cast_sub right.le]

theorem isNumeral_positional (m : Nat) (x : Int) :
    IsNumeral (positional (Nat.toDigits 10 m) (digitCount m + x)) (Decimal.round binary64 ⟨m, x⟩) := by
  have value := positionalValue_toDigits m
  obtain ⟨point, place⟩ : ∃ p, digitCount m + x = p := ⟨_, rfl⟩
  rw [positional, place, ← digitCount]
  split_ifs with small large
  · refine ⟨['0'], some (zeros (-point).toNat ++ Nat.toDigits 10 m), none, by simp [numeral], by simp, by simp, ?_, rfl, ?_⟩
    · rintro _ ⟨⟩
      exact ⟨by simp [Nat.toDigits_ne_nil], forall_mem_append.mpr ⟨isDigit_zeros _, isDigit_toDigits⟩⟩
    · have whole := (positionalValue_zeros_append ((-point).toNat + 1) _).trans value
      rw [decimalValue, Option.getD_some, length_append, ← digitCount]
      exact congrArg _ (congrArg₂ _ whole (by rw [Option.getD_none, zeros, length_replicate]; omega))
  · refine ⟨Nat.toDigits 10 m ++ zeros (point.toNat - digitCount m), some ['0'], none, by simp [numeral],
      by simp [Nat.toDigits_ne_nil], forall_mem_append.mpr ⟨isDigit_toDigits, isDigit_zeros _⟩, by simp, rfl, ?_⟩
    have whole := positionalValue_append_zeros (Nat.toDigits 10 m) (point.toNat - digitCount m + 1)
    rw [decimalValue, Option.getD_some, append_assoc, ← zeros_succ, whole, value,
      Decimal.round_scale]
    exact congrArg _ (congrArg₂ _ rfl (by rw [Option.getD_none, length_singleton]; omega))
  · have numeral := isNumeral_withPoint (m := m) (show 0 < point.toNat by omega) (by omega) none
    rw [show none.getD 0 - (digitCount m - point.toNat : ℤ) = x by rw [Option.getD_none]; omega] at numeral
    simpa using numeral

theorem isNumeral_scientific (m : Nat) (x : Int) :
    IsNumeral (scientific (Nat.toDigits 10 m) (digitCount m + x)) (Decimal.round binary64 ⟨m, x⟩) := by
  unfold scientific
  split
  · rename_i d single
    have one : digitCount m = 1 := by rw [digitCount, single]; rfl
    have digit : d.isDigit = true := isDigit_toDigits d (single ▸ mem_singleton_self d)
    refine ⟨[d], none, some (digitCount m + x - 1), by simp [numeral], by simp, by simpa using digit, by simp, rfl, ?_⟩
    rw [decimalValue, Option.getD_none, append_nil, ← single, positionalValue_toDigits, one]
    exact congrArg _ (congrArg₂ _ rfl (by simp))
  · rename_i several
    have length : 1 < digitCount m := by
      rw [digitCount]
      rcases digits : Nat.toDigits 10 m with _ | ⟨d, _ | ⟨e, ds⟩⟩
      · exact absurd digits Nat.toDigits_ne_nil
      · exact absurd digits (several d)
      · simp
    have numeral := isNumeral_withPoint (by decide) length (some (digitCount m + x - 1))
    rwa [show (some (digitCount m + x - 1)).getD 0 - (digitCount m - (1 : ℕ) : ℤ) = x by
      rw [Option.getD_some]; omega] at numeral

end Token

variable {depth : Nat}

theorem writtenItem_numeral (negative : Bool) {cs : List Char} {value : Floating} (own : IsNumeral cs value) :
    WrittenItem depth (if negative then '-' :: cs else cs) (signedLiteral negative (.float value)) := by
  have read := own.number?
  obtain ⟨whole, fraction, exponent, rfl, nonempty, digits, digits', real, -⟩ := own
  refine (written_number negative ?_ ?_ ?_ read).imp fun _ => And.left
  · refine ⟨whole.head nonempty, ?_, digits _ (head_mem nonempty)⟩
    rw [numeral, head?_append_of_ne_nil _ nonempty]
    exact head?_eq_some_head nonempty
  · obtain ⟨front, ds, text, nonempty, each⟩ : ∃ front ds, numeral whole fraction exponent = front ++ ds ∧ ds ≠ [] ∧
        ∀ c ∈ ds, c.isDigit = true := by
      cases exponent with
      | some k =>
        exact ⟨whole ++ (fraction.elim [] ('.' :: ·) ++ 'e' :: (if k < 0 then '-' else '+') ::
          zeros (2 - (Nat.toDigits 10 k.natAbs).length)), Nat.toDigits 10 k.natAbs, by simp [numeral, signedExponent],
          Nat.toDigits_ne_nil, isDigit_toDigits⟩
      | none =>
        cases fraction with
        | some ds => exact ⟨whole ++ ['.'], ds, by simp [numeral], digits' ds rfl⟩
        | none => cases real
    exact ⟨ds.getLast nonempty, by rw [text, getLast?_append_of_ne_nil _ nonempty]; exact getLast?_eq_some_getLast nonempty,
      each _ (getLast_mem nonempty)⟩
  · simp only [numeral, forall_mem_append]
    refine ⟨fun c mem => .inl (digits c mem), ?_, ?_⟩
    · cases fraction with
      | none => simp
      | some ds => exact forall_mem_cons.mpr ⟨.inr (by decide), fun c mem => .inl ((digits' ds rfl).2 c mem)⟩
    · cases exponent with
      | none => simp
      | some k =>
        refine forall_mem_cons.mpr ⟨.inr (by decide), forall_mem_cons.mpr ⟨.inr (by split <;> decide), ?_⟩⟩
        exact forall_mem_append.mpr ⟨fun c mem => .inl (isDigit_zeros _ c mem),
          fun c mem => .inl (isDigit_toDigits c mem)⟩

/-- The text of a finite double reads back as that double. -/
theorem writtenItem_float {q : ℚ} (holds : binary64.Holds (.finite q)) :
    WrittenItem depth (Floating.finite q).text.toList (signedLiteral (q < 0) (.float (.finite |q|))) := by
  by_cases zero : q = 0
  · subst zero
    exact writtenItem_numeral false ⟨['0'], some ['0'], none, rfl, by simp, by simp, by simp, rfl, rfl⟩
  · have holds' : binary64.Holds (.finite |q|) := by
      obtain ⟨m, k, bits, least, value, range⟩ := holds
      refine ⟨|m|, k, by simpa using bits, least, ?_, by simpa using range⟩
      rw [value, abs_mul, Int.cast_abs, abs_of_pos (show (0 : ℚ) < 2 ^ k from zpow_pos two_pos k)]
    obtain ⟨m, x, normal, round⟩ := Decimal.shortest_normal (abs_pos.mpr zero) holds'
    simp only [Floating.text, zero, if_false, magnitude_eq_abs, normal, String.toList_ofList]
    have body : IsNumeral (if -4 < digitCount m + x ∧ digitCount m + x ≤ 16 then
        positional (Nat.toDigits 10 m) (digitCount m + x) else scientific (Nat.toDigits 10 m) (digitCount m + x))
        (.finite |q|) := by
      rw [← round]
      split_ifs
      · exact isNumeral_positional m x
      · exact isNumeral_scientific m x
    simpa using writtenItem_numeral (q < 0) body

end Bladewright.Host
