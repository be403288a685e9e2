import Mathlib
import NotationCalculator.Text

/-!
# Letters in either case

A letter in lower case is one of two characters, the small letter and the capital one. The letters
that are matched more widely have one or two other forms besides, so that all characters that a
letter is matched with can be listed. No blank changes with the case.
-/
namespace NotationCalculator.Text

/-- The characters that a small letter is matched with: both cases, and the other forms of two of
the letters. -/
def forms (letter : Char) : List Char :=
  letter :: letter.toUpper ::
    if letter = 's' then ['ſ'] else if letter = 'i' then ['İ', 'ı'] else []

/-- The characters are forms of these letters, one after the other. -/
def Spells (letters cs : List Char) : Prop :=
  List.Forall₂ (fun letter c => c ∈ forms letter) letters cs

instance (letters cs : List Char) : Decidable (Spells letters cs) :=
  inferInstanceAs (Decidable (List.Forall₂ _ letters cs))

variable {letter c : Char} {letters cs rest : List Char} {line word : String}

theorem toLower_eq_iff (h : letter.isLower = true) :
    c.toLower = letter ↔ c = letter ∨ c = letter.toUpper := by
  have hsmall : ¬ letter.isUpper = true := Char.not_isUpper_of_isLower h
  constructor
  · rintro rfl
    by_cases hc : c.isUpper = true
    · have hcapital : ¬ c.isLower = true := Char.not_isLower_of_isUpper hc
      exact .inr (by rw [Char.toUpper_toLower_eq_toUpper, Char.toUpper_eq_of_not_isLower hcapital])
    · exact .inl (Char.toLower_eq_of_not_isUpper hc).symm
  · rintro (rfl | rfl)
    · exact Char.toLower_eq_of_not_isUpper hsmall
    · rw [Char.toLower_toUpper_eq_toLower, Char.toLower_eq_of_not_isUpper hsmall]

theorem isFormOf_iff (h : letter.isLower = true) :
    isFormOf letter c = true ↔ c ∈ forms letter := by
  have hsi : ¬ 's' = 'i' := by decide
  simp only [isFormOf, forms, Bool.or_eq_true, Bool.and_eq_true, decide_eq_true_eq,
    toLower_eq_iff h, List.mem_cons]
  split_ifs with hs hi
  · subst hs
    simp [hsi, or_assoc]
  · simp [hi, or_assoc]
  · simp [hs, hi]

theorem Spells.exists_letter (h : Spells letters cs) :
    ∀ c ∈ cs, ∃ letter ∈ letters, c ∈ forms letter := by
  induction h with
  | nil => simp
  | @cons letter c letters cs hc _ ih =>
    refine List.forall_mem_cons.mpr ⟨⟨letter, List.mem_cons_self, hc⟩, fun d hd => ?_⟩
    obtain ⟨other, hmem, hother⟩ := ih d hd
    exact ⟨other, List.mem_cons_of_mem letter hmem, hother⟩

theorem dropForms_eq_some_iff (h : ∀ letter ∈ letters, letter.isLower = true) :
    dropForms letters cs = some rest ↔ ∃ word, cs = word ++ rest ∧ Spells letters word := by
  induction letters generalizing cs with
  | nil => simp [dropForms, Spells, eq_comm]
  | cons letter letters ih =>
    rw [List.forall_mem_cons] at h
    cases cs with
    | nil => simp [dropForms, Spells, List.forall₂_cons_left_iff]
    | cons c cs =>
      rw [dropForms]
      split
      · next hform =>
        rw [ih h.2]
        constructor
        · rintro ⟨word, rfl, hword⟩
          exact ⟨c :: word, rfl, .cons ((isFormOf_iff h.1).mp hform) hword⟩
        · rintro ⟨_, hcs, hword⟩
          cases hword with
          | cons _ hword => exact ⟨_, (List.cons.inj hcs).2, hword⟩
      · next hform =>
        refine iff_of_false (by simp) ?_
        rintro ⟨_, hcs, hword⟩
        cases hword with
        | cons hc _ =>
          obtain ⟨rfl, -⟩ := List.cons.inj hcs
          exact hform ((isFormOf_iff h.1).mpr hc)

@[simp] theorem toList_lower (text : String) :
    (lower text).toList = text.toList.map Char.toLower := String.toList_ofList

/-- No capital letter is blank. -/
theorem toLower_of_isBlank (h : isBlank c = true) : c.toLower = c := by
  refine Char.toLower_eq_of_not_isUpper fun hupper => ?_
  have hcapital : 65 ≤ c.toNat ∧ c.toNat ≤ 90 := by
    simpa [Char.isUpper, UInt32.le_iff_toNat_le] using hupper
  have hranges : ∀ range ∈ blankRanges, range.2 < 65 ∨ 90 < range.1 := by decide
  obtain ⟨range, hrange, hin⟩ := List.any_eq_true.mp h
  have hapart := hranges range hrange
  rw [Bool.and_eq_true, decide_eq_true_eq, decide_eq_true_eq] at hin
  omega

theorem not_blank_of_lower (h : lower line = word) (hword : ∀ c ∈ word.toList, isBlank c = false) :
    ∀ c ∈ line.toList, isBlank c = false := by
  subst h
  intro c hc
  by_contra hblank
  have hlower := hword c.toLower (by simpa using ⟨c, hc, rfl⟩)
  rw [Bool.not_eq_false] at hblank
  rw [toLower_of_isBlank hblank, hblank] at hlower
  cases hlower

theorem spells_of_lower (h : lower line = word) (hword : ∀ c ∈ word.toList, c.isLower = true) :
    Spells word.toList line.toList := by
  subst h
  rw [toList_lower] at hword ⊢
  rw [Spells, List.forall₂_map_left_iff, List.forall₂_same]
  intro c hc
  have hsmall : c.toLower.isLower = true := hword _ (List.mem_map_of_mem hc)
  rcases (toLower_eq_iff hsmall).mp rfl with heq | heq
  · exact heq ▸ List.mem_cons_self
  · exact List.mem_cons_of_mem _ (List.mem_cons.mpr (.inl heq))

end NotationCalculator.Text
