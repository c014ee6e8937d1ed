import Bladewright.Blade.Name
import Mathlib.Algebra.Group.Nat.Defs
import Mathlib.Data.List.Induction
import Mathlib.Data.List.Basic

/-!
The texts that name blades.
-/
namespace Bladewright.Blade

open List

/-- How factors can be written, in order and counted from one: with a digit each, or with a numeral each. -/
def Spells (cs : List Char) (factors : List Nat) : Prop :=
  factors ≠ [] ∧ ((∀ i ∈ factors, i + 1 < 10) ∧ cs = 'e' :: factors.map (fun i => (i + 1).digitChar) ∨
    cs = 'e' :: factors.flatMap fun i => '_' :: Nat.toDigits 10 (i + 1))

/-- A text names factors if it spells them, or spells them before a line break at its end. -/
def Names (cs : List Char) (factors : List Nat) : Prop :=
  Spells cs factors ∨ ∃ ds, cs = ds ++ ['\n'] ∧ Spells ds factors

/-- The number of a factor is written with no more digits than a numeral may have. -/
def IsShort (i : Nat) : Prop := (Nat.toDigits 10 (i + 1)).length ≤ Numeral.digitLimit

theorem isShort_iff {i : Nat} : IsShort i ↔ i + 1 < 10 ^ Numeral.digitLimit :=
  Nat.length_toDigits_le_iff (by decide) (by decide)

/-! ### Numerals -/

variable {d : Nat} {cs g : List Char} {c : Char} {factors : List Nat}

theorem isIndexDigit_digitChar (positive : 0 < d) (small : d < 10) : isIndexDigit d.digitChar = true := by
  have each : ∀ d < 10, 0 < d → isIndexDigit d.digitChar = true := by decide
  exact each d small positive

theorem digitValue_digitChar (small : d < 10) : digitValue d.digitChar = d := by
  have each : ∀ d < 10, digitValue d.digitChar = d := by decide
  exact each d small

theorem numeralValue_toDigits (m : Nat) : numeralValue (Nat.toDigits 10 m) = m :=
  Nat.ofDigitChars_toDigits (by decide) (by decide)

theorem isIndexNumeral_append {ds : List Char} (numeral : isIndexNumeral cs = true)
    (digits : ∀ d ∈ ds, d.isDigit = true) : isIndexNumeral (cs ++ ds) = true := by
  cases cs with
  | nil => cases numeral
  | cons c cs =>
    simp only [isIndexNumeral, cons_append, all_append, Bool.and_eq_true] at numeral ⊢
    exact ⟨numeral.1, numeral.2, all_eq_true.mpr digits⟩

theorem isIndexNumeral_toDigits {m : Nat} (positive : 0 < m) : isIndexNumeral (Nat.toDigits 10 m) = true := by
  induction m using Nat.strongRecOn with
  | ind m ih =>
    by_cases small : m < 10
    · rw [Nat.toDigits_of_lt_base small, isIndexNumeral, isIndexDigit_digitChar positive small]
      rfl
    · have parts : 10 * (m / 10) + m % 10 = m := Nat.div_add_mod m 10
      rw [← parts, ← Nat.toDigits_append_toDigits (by decide) (by omega) (by omega)]
      exact isIndexNumeral_append (ih (m / 10) (by omega) (by omega)) fun d mem =>
        Nat.isDigit_of_mem_toDigits (by decide) (by decide) mem

theorem digitChar_digitValue (digit : c.isDigit = true) : digitValue c < 10 ∧ (digitValue c).digitChar = c := by
  have each : ∀ n < 58, 48 ≤ n → n - 48 < 10 ∧ (n - 48).digitChar = Char.ofNat n := by decide
  simp only [Char.isDigit, Bool.and_eq_true, decide_eq_true_eq] at digit
  have lower : 48 ≤ c.toNat := digit.1
  have upper : c.toNat ≤ 57 := digit.2
  have known := each c.toNat (by omega) lower
  rwa [Char.ofNat_toNat] at known

theorem isDigit_of_isIndexDigit (digit : isIndexDigit c = true) : c.isDigit = true ∧ 0 < digitValue c := by
  simp only [isIndexDigit, Bool.and_eq_true, decide_eq_true_eq] at digit
  have lower : 49 ≤ c.toNat := digit.1
  refine ⟨?_, Nat.sub_pos_of_lt (show 48 < c.toNat by omega)⟩
  simp only [Char.isDigit, Bool.and_eq_true, decide_eq_true_eq]
  exact ⟨show 48 ≤ c.toNat by omega, digit.2⟩

theorem eq_digitChar (digit : isIndexDigit c = true) :
    digitValue c - 1 + 1 < 10 ∧ (digitValue c - 1 + 1).digitChar = c := by
  obtain ⟨own, positive⟩ := isDigit_of_isIndexDigit digit
  rw [Nat.sub_add_cancel positive]
  exact digitChar_digitValue own

theorem numeralValue_append (ds : List Char) (c : Char) :
    numeralValue (ds ++ [c]) = 10 * numeralValue ds + digitValue c := by
  rw [numeralValue, numeralValue, foldl_append, foldl_cons, foldl_nil]

theorem toDigits_numeralValue (numeral : isIndexNumeral g = true) :
    0 < numeralValue g ∧ Nat.toDigits 10 (numeralValue g) = g := by
  induction g using List.reverseRecOn with
  | nil => cases numeral
  | append_singleton ds c ih =>
    rw [numeralValue_append]
    cases ds with
    | nil =>
      rw [nil_append, isIndexNumeral, all_nil, Bool.and_true] at numeral
      obtain ⟨digit, positive⟩ := isDigit_of_isIndexDigit numeral
      obtain ⟨small, same⟩ := digitChar_digitValue digit
      show 0 < 10 * 0 + digitValue c ∧ Nat.toDigits 10 (10 * 0 + digitValue c) = [c]
      rw [Nat.mul_zero, Nat.zero_add, Nat.toDigits_of_lt_base small, same]
      exact ⟨positive, rfl⟩
    | cons d ds =>
      simp only [cons_append, isIndexNumeral, all_append, all_cons, all_nil, Bool.and_true,
        Bool.and_eq_true] at numeral
      obtain ⟨positive, same⟩ := ih (by simp [isIndexNumeral, numeral])
      obtain ⟨small, last⟩ := digitChar_digitValue numeral.2.2
      refine ⟨by omega, ?_⟩
      rw [← Nat.toDigits_append_toDigits (by decide) positive small, same, Nat.toDigits_of_lt_base small, last]

/-! ### Groups -/

theorem cutGroups_append {group rest first : List Char} {groups : List (List Char)} (clean : '_' ∉ group)
    (cut : cutGroups rest = first :: groups) : cutGroups (group ++ rest) = (group ++ first) :: groups := by
  induction group with
  | nil => exact cut
  | cons c cs ih =>
    rw [mem_cons, not_or] at clean
    rw [cons_append, cutGroups, ih clean.2]
    simp only [Ne.symm clean.1, if_false, cons_append]

theorem flatMap_cutGroups (cs : List Char) : (cutGroups cs).flatMap ('_' :: ·) = '_' :: cs := by
  induction cs with
  | nil => rfl
  | cons c cs ih =>
    rw [cutGroups]
    cases cut : cutGroups cs with
    | nil => simp [cut] at ih
    | cons group groups =>
      rw [cut, flatMap_cons, cons_append, List.cons.injEq] at ih
      by_cases mark : c = '_' <;> simp [mark, ih.2]

theorem cutGroups_flatMap {gs : List (List Char)} (clean : ∀ h ∈ g :: gs, '_' ∉ h) :
    cutGroups (g ++ gs.flatMap ('_' :: ·)) = g :: gs := by
  induction gs generalizing g with
  | nil => simpa using cutGroups_append (clean g mem_cons_self) (show cutGroups [] = [[]] from rfl)
  | cons g' gs ih =>
    rw [forall_mem_cons] at clean
    have others : cutGroups ('_' :: (g' ++ gs.flatMap ('_' :: ·))) = [] :: g' :: gs := by
      rw [cutGroups, ih clean.2]
      simp
    simpa using cutGroups_append clean.1 others

/-! ### The texts that are read -/

theorem readFactors?_digits (nonempty : cs ≠ []) (digits : ∀ c ∈ cs, isIndexDigit c = true) :
    readFactors? cs = some (cs.map fun c => digitValue c - 1) := by
  obtain ⟨c, rest, rfl⟩ := exists_cons_of_ne_nil nonempty
  have compact : c ≠ '_' := by
    rintro rfl
    exact absurd (digits '_' mem_cons_self) (by decide)
  rw [readFactors?.eq_3 _ (by simp [compact]) (by simp)]
  exact if_pos (all_eq_true.mpr digits)

theorem readFactors?_iff : readFactors? cs = some factors ↔ Spells ('e' :: cs) factors := by
  constructor
  · intro read
    unfold readFactors? at read
    split at read
    · rename_i rest
      simp only [Option.ite_none_right_eq_some, Option.some.injEq] at read
      obtain ⟨numerals, rfl⟩ := read
      have each := all_eq_true.mp numerals
      refine ⟨fun empty => ?_, .inr ?_⟩
      · have split := flatMap_cutGroups rest
        rw [map_eq_nil_iff.mp empty] at split
        cases split
      · rw [flatMap_map, ← flatMap_cutGroups rest]
        refine congrArg ('e' :: ·) (flatMap_congr fun g mem => ?_)
        obtain ⟨positive, same⟩ := toDigits_numeralValue (each g mem)
        rw [Nat.sub_add_cancel positive, same]
    · cases read
    · rename_i nonempty
      simp only [Option.ite_none_right_eq_some, Option.some.injEq] at read
      obtain ⟨digits, rfl⟩ := read
      have each := all_eq_true.mp digits
      refine ⟨fun empty => nonempty (map_eq_nil_iff.mp empty), .inl ⟨?_, ?_⟩⟩
      · exact forall_mem_map.mpr fun c mem => (eq_digitChar (each c mem)).1
      · rw [map_map]
        refine congrArg ('e' :: ·) ((map_id cs).symm.trans (map_congr_left fun c mem => ?_))
        exact (eq_digitChar (each c mem)).2.symm
  · rintro ⟨nonempty, ⟨small, same⟩ | same⟩
    · have digit : ∀ c ∈ factors.map fun i => (i + 1).digitChar, isIndexDigit c = true :=
        forall_mem_map.mpr fun i mem => isIndexDigit_digitChar (by omega) (small i mem)
      rw [(List.cons.inj same).2, readFactors?_digits (by simpa using nonempty) digit, map_map]
      refine congrArg some ((map_congr_left fun i mem => ?_).trans (map_id factors))
      simp [digitValue_digitChar (small i mem)]
    · have clean : ∀ g ∈ factors.map fun i => Nat.toDigits 10 (i + 1), '_' ∉ g :=
        forall_mem_map.mpr fun i _ mark =>
          absurd (Nat.isDigit_of_mem_toDigits (by decide) (by decide) mark) (by decide)
      obtain ⟨i, others, rfl⟩ := exists_cons_of_ne_nil nonempty
      have cut := cutGroups_flatMap clean
      have numerals : ((i :: others).map fun i => Nat.toDigits 10 (i + 1)).all isIndexNumeral = true := by
        rw [all_eq_true]
        exact forall_mem_map.mpr fun i _ => isIndexNumeral_toDigits i.succ_pos
      rw [flatMap_map] at cut
      rw [(List.cons.inj same).2, flatMap_cons, cons_append, readFactors?, cut]
      refine (if_pos numerals).trans (congrArg some ?_)
      simp [Function.comp_def, numeralValue_toDigits]

theorem Spells.last_ne (spells : Spells cs factors) : cs.getLast? ≠ some '\n' := by
  intro last
  have mem := mem_of_getLast? last
  obtain ⟨-, ⟨small, rfl⟩ | rfl⟩ := spells
  · rw [mem_cons, mem_map] at mem
    obtain ⟨i, own, same⟩ := mem.resolve_left (by decide)
    exact absurd (same ▸ isIndexDigit_digitChar i.succ_pos (small i own)) (by decide)
  · rw [mem_cons, mem_flatMap] at mem
    obtain ⟨i, -, inside⟩ := mem.resolve_left (by decide)
    have digit := (mem_cons.mp inside).resolve_left (by decide)
    exact absurd (Nat.isDigit_of_mem_toDigits (by decide) (by decide) digit) (by decide)

theorem spells_dropFinalBreak : Spells (dropFinalBreak cs) factors ↔ Names cs factors := by
  unfold dropFinalBreak Names
  split
  · rename_i last
    have ends := dropLast_append_getLast? '\n' last
    refine ⟨fun spells => .inr ⟨_, ends.symm, spells⟩, ?_⟩
    rintro (spells | ⟨ds, rfl, spells⟩)
    · exact absurd last spells.last_ne
    · rwa [dropLast_concat]
  · rename_i other
    refine ⟨.inl, ?_⟩
    rintro (spells | ⟨ds, rfl, -⟩)
    · exact spells
    · exact absurd List.getLast?_concat other

theorem parseName?_iff {s : String} : parseName? s = some factors ↔ Names s.toList factors := by
  rw [← spells_dropFinalBreak, parseName?]
  split
  · rename_i cs text
    rw [text, readFactors?_iff]
  · rename_i other
    refine ⟨nofun, fun spells => ?_⟩
    obtain ⟨-, ⟨-, same⟩ | same⟩ := spells <;> exact absurd same (other _)

theorem parseName_iff {s : String} {all : List Nat} (named : parseName? s = some all) :
    (parseName s = .ok (some all) ↔ ∀ i ∈ all, IsShort i) ∧
      (parseName s = .error .tooManyDigits ↔ ∃ i ∈ all, ¬ IsShort i) ∧ parseName s ≠ .ok none := by
  have decided : (all.all fun i => Numeral.digitCount (i + 1) ≤ Numeral.digitLimit) = true ↔ ∀ i ∈ all, IsShort i :=
    all_eq_true.trans (forall₂_congr fun i _ => decide_eq_true_iff)
  unfold parseName
  simp only [named]
  split
  · rename_i short
    refine ⟨⟨fun _ => decided.mp short, fun _ => rfl⟩, ⟨nofun, ?_⟩, nofun⟩
    rintro ⟨i, mem, long⟩
    exact absurd (decided.mp short i mem) long
  · rename_i long
    refine ⟨⟨nofun, fun short => absurd (decided.mpr short) long⟩, ⟨fun _ => ?_, fun _ => rfl⟩, nofun⟩
    simpa using mt decided.mpr long

/-- The texts that name a blade, and the factors that each of them names. A text gives the factors that it names if no
numeral for a factor is too long to be read; if one is, the text is refused, and a text that names none gives none. -/
theorem parseName_exact (s : String) :
    (∀ factors, parseName s = .ok (some factors) ↔ Names s.toList factors ∧ ∀ i ∈ factors, IsShort i) ∧
    (parseName s = .error .tooManyDigits ↔ ∃ factors, Names s.toList factors ∧ ∃ i ∈ factors, ¬ IsShort i) ∧
    (parseName s = .ok none ↔ ∀ factors, ¬ Names s.toList factors) := by
  simp only [← parseName?_iff]
  cases named : parseName? s with
  | none => simp [parseName, named, pure, Except.pure]
  | some all =>
    obtain ⟨given, refused, other⟩ := parseName_iff named
    refine ⟨fun factors => ⟨fun read => ?_, ?_⟩, ⟨fun failed => ⟨all, rfl, refused.mp failed⟩, ?_⟩, ?_⟩
    · have same : factors = all := by
        unfold parseName at read
        simp only [named] at read
        split at read <;> cases read
        rfl
      exact ⟨same ▸ rfl, same ▸ given.mp (same ▸ read)⟩
    · rintro ⟨⟨⟩, short⟩
      exact given.mpr short
    · rintro ⟨_, ⟨⟩, long⟩
      exact refused.mpr long
    · exact ⟨fun absent => absurd absent other, fun unnamed => absurd rfl (unnamed all)⟩

/-- A line break after a name is read over, though no name has one. -/
theorem parseName_break : parseName "e1\n" = .ok (some [0]) ∧ ∀ factors, ¬Spells "e1\n".toList factors :=
  ⟨rfl, fun _ spells => spells.last_ne rfl⟩

end Bladewright.Blade
