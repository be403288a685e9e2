import NotationCalculator.Proofs.NumeralGrammar
import NotationCalculator.Proofs.Words

/-!
# The characters of numerals

A numeral has only digits, signs, points and the letter of the exponent in it. None of these is a
blank or a parenthesis, so a numeral is one word of every text that it is written in.
-/
namespace NotationCalculator.Numeral

open Text

/-- What a numeral can have in it. -/
def IsCharacter (c : Char) : Prop :=
  (digitValue? c).isSome ∨ c ∈ ['+', '-', '.', 'e', 'E']

instance : DecidablePred IsCharacter := fun c =>
  inferInstanceAs (Decidable ((digitValue? c).isSome ∨ c ∈ ['+', '-', '.', 'e', 'E']))

section Grammar

variable {cs : List Char}

theorem WritesDigits.isCharacter {digits : List ℕ} (h : WritesDigits cs digits) :
    ∀ c ∈ cs, IsCharacter c := by
  induction h with
  | nil => simp
  | cons hd _ ih => exact List.forall_mem_cons.mpr ⟨.inl (by rw [hd]; rfl), ih⟩

theorem WritesSign.isCharacter {negative : Bool} (h : WritesSign cs negative) :
    ∀ c ∈ cs, IsCharacter c := by
  cases h with
  | none => simp
  | plus => exact List.forall_mem_singleton.mpr (.inr (by decide))
  | minus => exact List.forall_mem_singleton.mpr (.inr (by decide))

theorem WritesMantissa.isCharacter {whole fraction : List ℕ}
    (h : WritesMantissa cs whole fraction) : ∀ c ∈ cs, IsCharacter c := by
  have hpoint : IsCharacter '.' := .inr (by decide)
  cases h with
  | whole hrow _ => exact hrow.isCharacter
  | point hrow _ hdecimals =>
    exact List.forall_mem_append.mpr
      ⟨hrow.isCharacter, List.forall_mem_cons.mpr ⟨hpoint, hdecimals.isCharacter⟩⟩
  | leadingPoint hdecimals _ => exact List.forall_mem_cons.mpr ⟨hpoint, hdecimals.isCharacter⟩

theorem WritesExponent.isCharacter {e : ℤ} (h : WritesExponent cs e) :
    ∀ c ∈ cs, IsCharacter c := by
  cases h with
  | none => simp
  | some hletter hsign hrow _ =>
    refine List.forall_mem_cons.mpr
      ⟨?_, List.forall_mem_append.mpr ⟨hsign.isCharacter, hrow.isCharacter⟩⟩
    rcases hletter with rfl | rfl <;> exact .inr (by decide)

theorem Writes.isCharacter {negative : Bool} {q : ℚ} (h : Writes cs negative q) :
    ∀ c ∈ cs, IsCharacter c := by
  obtain ⟨hsign, hmantissa, hexponent⟩ := h
  exact List.forall_mem_append.mpr ⟨hsign.isCharacter,
    List.forall_mem_append.mpr ⟨hmantissa.isCharacter, hexponent.isCharacter⟩⟩

end Grammar

variable {c : Char}

/-- A digit is one of a run of ten. -/
theorem exists_run (h : (digitValue? c).isSome) :
    ∃ start ∈ digitZeros, start ≤ c.toNat ∧ c.toNat < start + 10 := by
  obtain ⟨d, hd⟩ := Option.isSome_iff_exists.mp h
  obtain ⟨start, hstart, hrun⟩ := List.exists_of_findSome?_eq_some hd
  split_ifs at hrun with hin
  exact ⟨start, hstart, hin⟩

/-- No run of digits meets the blanks, and all of them come after the parentheses. -/
theorem digitZeros_apart : ∀ start ∈ digitZeros, ')'.toNat < start ∧
    ∀ range ∈ blankRanges, start + 9 < range.1 ∨ range.2 < start := by
  decide

theorem IsCharacter.not_blank (h : IsCharacter c) : isBlank c = false := by
  rcases h with hdigit | hmem
  · obtain ⟨start, hstart, hin⟩ := exists_run hdigit
    have hapart := (digitZeros_apart start hstart).2
    simp only [isBlank, List.any_eq_false, Bool.and_eq_true, decide_eq_true_eq, not_and]
    intro range hrange hle
    have hone := hapart range hrange
    omega
  · have hword : IsWord ['+', '-', '.', 'e', 'E'] := by decide
    exact hword.no_blank c hmem

theorem IsCharacter.ne_parenthesis (h : IsCharacter c) : c ≠ '(' ∧ c ≠ ')' := by
  rcases h with hdigit | hmem
  · obtain ⟨start, hstart, hin⟩ := exists_run hdigit
    have hlow := (digitZeros_apart start hstart).1
    constructor
    · rintro rfl
      have hless : '('.toNat < ')'.toNat := by decide
      omega
    · rintro rfl
      omega
  · have hopen : '(' ∉ ['+', '-', '.', 'e', 'E'] := by decide
    have hclose : ')' ∉ ['+', '-', '.', 'e', 'E'] := by decide
    exact ⟨ne_of_mem_of_not_mem hmem hopen, ne_of_mem_of_not_mem hmem hclose⟩

theorem forall_isCharacter {token : String} (h : (parse? token).isSome) :
    ∀ c ∈ token.toList, IsCharacter c := by
  obtain ⟨x, hx⟩ := Option.isSome_iff_exists.mp h
  obtain ⟨negative, q, hwrites, -⟩ := exists_writes_of_parse hx
  exact hwrites.isCharacter

theorem isWord_of_parse {token : String} (h : (parse? token).isSome) : IsWord token.toList := by
  refine ⟨fun hnil => ?_, fun c hc => (forall_isCharacter h c hc).not_blank⟩
  have hempty : read? [] = none := by decide
  rw [parse?, hnil, hempty] at h
  cases h

end NotationCalculator.Numeral
