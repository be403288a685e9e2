import NotationCalculator.Console
import NotationCalculator.Proofs.Letters
import NotationCalculator.Proofs.NumeralCharacters

/-!
# The lines that are commands

A line is a command in one of two ways. It has the letters of one of the words, each in either case,
and nothing besides. Or it sets the precision: the letters of `precision` in any of their forms,
then blanks, then digits of any scripts up to its end. There is a blank in a line that sets the
precision and none in the others, so no line is two commands.
-/
namespace NotationCalculator

open Text Numeral

namespace Command

/-- The words that are commands by themselves. -/
def loneWords : List String :=
  ["help", "settings", "prefix", "infix", "postfix", "radians", "degrees"]

/-- The whole line sets the precision, with digits of these values. -/
inductive PrecisionLine : List Char → List ℕ → Prop
  | mk {word blanks row : List Char} {digits : List ℕ} :
      Spells "precision".toList word → AllBlank blanks → blanks ≠ [] →
      WritesDigits row digits → digits ≠ [] → PrecisionLine (word ++ (blanks ++ row)) digits

variable {line : String} {cs : List Char} {digits : List ℕ} {command : Command}

theorem not_blank_of_digit {c : Char} {d : ℕ} (h : digitValue? c = some d) : isBlank c = false :=
  IsCharacter.not_blank (.inl (by rw [h]; rfl))

theorem dropForms_precision {rest : List Char} : dropForms "precision".toList cs = some rest ↔
    ∃ word, cs = word ++ rest ∧ Spells "precision".toList word :=
  dropForms_eq_some_iff (List.all_eq_true.mp (by decide))

theorem precisionLine_of_precisionDigits (h : precisionDigits? cs = some digits) :
    PrecisionLine cs digits := by
  unfold precisionDigits? at h
  split at h
  · next c cs hforms =>
    obtain ⟨word, rfl, hword⟩ := dropForms_precision.mp hforms
    split at h
    · next hc =>
      obtain ⟨row, hrow, hwrites⟩ := writesDigits_spanDigits (cs.dropWhile isBlank)
      split at h
      · next d ds hspan =>
        obtain rfl := Option.some.inj h
        rw [hspan, List.append_nil] at hrow
        rw [hspan] at hwrites
        have hblanks : AllBlank (c :: cs.takeWhile isBlank) :=
          List.forall_mem_cons.mpr ⟨hc, fun _ hb => List.mem_takeWhile_imp hb⟩
        have hline := PrecisionLine.mk hword hblanks (by simp) hwrites (by simp)
        rwa [← hrow, List.cons_append, List.takeWhile_append_dropWhile] at hline
      · cases h
    · cases h
  · cases h

theorem PrecisionLine.precisionDigits_eq (h : PrecisionLine cs digits) :
    precisionDigits? cs = some digits := by
  cases h with
  | @mk word blanks row _ hword hblanks hne hrow hdigits =>
    obtain ⟨b, bs, rfl⟩ := List.exists_cons_of_ne_nil hne
    obtain ⟨hb, hbs⟩ := List.forall_mem_cons.mp hblanks
    have hforms : dropForms "precision".toList (word ++ (b :: bs ++ row)) = some (b :: bs ++ row) :=
      dropForms_precision.mpr ⟨word, rfl, hword⟩
    have hdrop : (bs ++ row).dropWhile isBlank = row := by
      rw [List.dropWhile_append_of_pos hbs]
      cases hrow with
      | nil => rfl
      | cons hd _ => exact List.dropWhile_cons_of_neg (by simp [not_blank_of_digit hd])
    have hend : NoDigit [] := by simp [NoDigit]
    have hspan := spanDigits_append hrow hend
    obtain ⟨d, ds, rfl⟩ := List.exists_cons_of_ne_nil hdigits
    rw [List.append_nil] at hspan
    unfold precisionDigits?
    rw [hforms]
    simp only [List.cons_append, hb, hdrop, hspan, if_true]

theorem precisionDigits_eq_some_iff : precisionDigits? cs = some digits ↔ PrecisionLine cs digits :=
  ⟨precisionLine_of_precisionDigits, PrecisionLine.precisionDigits_eq⟩

theorem ofLine_of_lower_not_mem (h : lower line ∉ loneWords) :
    ofLine? line = (precisionDigits? line.toList).map .precision := by
  simp only [loneWords, List.mem_cons, List.not_mem_nil, or_false, not_or] at h
  obtain ⟨hhelp, hsettings, hpre, hin, hpost, hradians, hdegrees⟩ := h
  simp [ofLine?, Notation.word, AngleUnit.label, hhelp, hsettings, hpre, hin, hpost, hradians,
    hdegrees]

/-- All that makes a line a command. -/
theorem ofLine_cases (h : ofLine? line = some command) :
    lower line ∈ loneWords ∨
      ∃ digits, command = .precision digits ∧ PrecisionLine line.toList digits := by
  by_cases hword : lower line ∈ loneWords
  · exact .inl hword
  · rw [ofLine_of_lower_not_mem hword, Option.map_eq_some_iff] at h
    obtain ⟨digits, hdigits, rfl⟩ := h
    exact .inr ⟨digits, rfl, precisionDigits_eq_some_iff.mp hdigits⟩

theorem PrecisionLine.lower_not_mem (h : PrecisionLine line.toList digits) :
    lower line ∉ loneWords := by
  intro hmem
  have hwords : ∀ word ∈ loneWords, IsWord word.toList := by decide
  have hline := not_blank_of_lower rfl (hwords _ hmem).no_blank
  generalize line.toList = cs at h hline
  obtain ⟨hword, hblanks, hne, hrow, hdigits⟩ := h
  obtain ⟨b, bs, rfl⟩ := List.exists_cons_of_ne_nil hne
  have hb := hblanks b List.mem_cons_self
  rw [hline b (by simp)] at hb
  cases hb

theorem ofLine_eq_precision_iff :
    ofLine? line = some (.precision digits) ↔ PrecisionLine line.toList digits := by
  constructor
  · intro h
    -- Each word that stands alone gives another command.
    unfold ofLine? at h
    dsimp only at h
    split at h
    · cases h
    split at h
    · cases h
    split at h
    · cases h
    split at h
    · cases h
    obtain ⟨_, hdigits, heq⟩ := Option.map_eq_some_iff.mp h
    cases heq
    exact precisionDigits_eq_some_iff.mp hdigits
  · intro h
    rw [ofLine_of_lower_not_mem h.lower_not_mem, precisionDigits_eq_some_iff.mpr h, Option.map_some]

/-- A precision has no more digits than the line that sets it. -/
theorem PrecisionLine.length_toDigits_le (h : PrecisionLine cs digits) :
    (Nat.toDigits 10 (rowValue digits)).length ≤ digits.length := by
  obtain ⟨-, -, -, hrow, hdigits⟩ := h
  exact (Nat.length_toDigits_le_iff (by decide) (List.length_pos_iff.mpr hdigits)).mpr
    hrow.rowValue_lt

end Command

end NotationCalculator
