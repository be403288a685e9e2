import NotationCalculator.Text
import Mathlib.Data.List.Basic

/-!
# Words and the texts that hold them

A word of a text is not empty and has no blank in it. Conversely, writing such words with a space
between them gives a text that has exactly these words, so a list of tokens and its text can stand
for one another.
-/
namespace NotationCalculator.Text

/-- What a text can have as a word. -/
structure IsWord (w : List Char) : Prop where
  ne_nil : w ≠ []
  no_blank : ∀ c ∈ w, isBlank c = false

instance (w : List Char) : Decidable (IsWord w) :=
  decidable_of_iff (w ≠ [] ∧ w.all (fun c => isBlank c = false) = true)
    ⟨fun h => ⟨h.1, fun c hc => by simpa using List.all_eq_true.mp h.2 c hc⟩,
      fun h => ⟨h.ne_nil, List.all_eq_true.mpr fun c hc => by simpa using h.no_blank c hc⟩⟩

theorem splitWords_cons_of_not_blank {c : Char} (hc : isBlank c = false) (d : Char)
    (cs : List Char) :
    splitWords (c :: d :: cs) =
      if isBlank d then [c] :: splitWords (d :: cs)
      else (splitWords (d :: cs)).modifyHead (c :: ·) := by
  rw [splitWords]
  simp only [hc, Bool.false_eq_true, if_false]

/-- A word ends where the text does or a blank follows. -/
theorem splitWords_append {w rest : List Char} (hw : IsWord w)
    (hrest : ∀ b ∈ rest.head?, isBlank b) : splitWords (w ++ rest) = w :: splitWords rest := by
  obtain ⟨hne, hb⟩ := hw
  induction w with
  | nil => exact absurd rfl hne
  | cons c w ih =>
    have hc := hb c List.mem_cons_self
    cases w with
    | nil =>
      cases rest with
      | nil => simp [splitWords, hc]
      | cons b rest =>
        have hblank : isBlank b := hrest b rfl
        rw [List.singleton_append, splitWords_cons_of_not_blank hc, if_pos hblank]
    | cons d w =>
      have hd := hb d (by simp)
      have htail := ih (by simp) (fun x hx => hb x (List.mem_cons_of_mem c hx))
      rw [List.cons_append] at htail
      rw [List.cons_append, List.cons_append, splitWords_cons_of_not_blank hc, htail, hd]
      rfl

@[simp] theorem splitWords_word {w : List Char} (hw : IsWord w) : splitWords w = [w] := by
  have hend : ∀ b ∈ ([] : List Char).head?, isBlank b := by simp
  have h := splitWords_append hw hend
  rwa [List.append_nil] at h

theorem splitWords_cons_ne_nil {c : Char} (hc : isBlank c = false) (cs : List Char) :
    splitWords (c :: cs) ≠ [] := by
  induction cs generalizing c with
  | nil => simp [splitWords, hc]
  | cons d cs ih =>
    rw [splitWords_cons_of_not_blank hc]
    split
    · simp
    · next hd => simpa using ih (by simpa using hd)

/-- A blank separates what stands before it from what comes after it. -/
theorem splitWords_append_cons_blank {b : Char} (hb : isBlank b = true) (cs ds : List Char) :
    splitWords (cs ++ b :: ds) = splitWords cs ++ splitWords ds := by
  induction cs with
  | nil => exact splitWords_cons_blank hb ds
  | cons c cs ih =>
    cases hc : isBlank c with
    | true => rw [List.cons_append, splitWords_cons_blank hc, splitWords_cons_blank hc, ih]
    | false =>
      cases cs with
      | nil =>
        have hsingle : IsWord [c] := ⟨by simp, by simpa using hc⟩
        rw [splitWords_append hsingle (by simpa using hb), splitWords_cons_blank hb,
          splitWords_word hsingle, List.singleton_append]
      | cons d cs =>
        rw [List.cons_append] at ih
        rw [List.cons_append, List.cons_append, splitWords_cons_of_not_blank hc,
          splitWords_cons_of_not_blank hc, ih]
        cases hd : isBlank d with
        | true => rfl
        | false =>
          obtain ⟨w, ws, hws⟩ := List.exists_cons_of_ne_nil (splitWords_cons_ne_nil hd cs)
          rw [hws]
          rfl

section Blanks

/-- No other characters than blanks. -/
def AllBlank (bs : List Char) : Prop := ∀ b ∈ bs, isBlank b = true

variable {b : Char} {bs : List Char}

theorem allBlank_singleton (h : isBlank b = true) : AllBlank [b] := by
  simpa [AllBlank] using h

theorem AllBlank.splitWords_append (h : AllBlank bs) (cs : List Char) :
    splitWords (bs ++ cs) = splitWords cs := by
  induction bs with
  | nil => rfl
  | cons b bs ih =>
    rw [List.cons_append, splitWords_cons_blank (h b List.mem_cons_self),
      ih fun c hc => h c (List.mem_cons_of_mem b hc)]

theorem AllBlank.splitWords_between (h : AllBlank bs) (hne : bs ≠ []) (cs ds : List Char) :
    splitWords (cs ++ bs ++ ds) = splitWords cs ++ splitWords ds := by
  obtain ⟨b, bs, rfl⟩ := List.exists_cons_of_ne_nil hne
  rw [List.append_assoc, List.cons_append, splitWords_append_cons_blank (h b List.mem_cons_self),
    AllBlank.splitWords_append fun c hc => h c (List.mem_cons_of_mem b hc)]

theorem AllBlank.splitWords_behind (h : AllBlank bs) (cs : List Char) :
    splitWords (cs ++ bs) = splitWords cs := by
  by_cases hne : bs = []
  · rw [hne, List.append_nil]
  · have hbetween := h.splitWords_between hne cs []
    rwa [List.append_nil, splitWords_nil, List.append_nil] at hbetween

end Blanks

theorem splitWords_intercalate {ws : List (List Char)} (hws : ∀ w ∈ ws, IsWord w) :
    splitWords ([' '].intercalate ws) = ws := by
  induction ws with
  | nil => rfl
  | cons w ws ih =>
    have hw := hws w List.mem_cons_self
    have htail := ih (fun v hv => hws v (List.mem_cons_of_mem w hv))
    cases ws with
    | nil => rw [List.intercalate_singleton, splitWords_word hw]
    | cons v ws =>
      have hspace : isBlank ' ' := by decide
      rw [List.intercalate_cons_cons, List.append_assoc, List.singleton_append,
        splitWords_append hw (by simpa using hspace), splitWords_cons_blank hspace, htail]

/-- Tokens that are written with spaces between them are read back one by one. -/
theorem words_intercalate {tokens : List String} (h : ∀ token ∈ tokens, IsWord token.toList) :
    words (" ".intercalate tokens) = tokens := by
  have hws : ∀ w ∈ tokens.map String.toList, IsWord w := by
    intro w hw
    obtain ⟨token, hmem, rfl⟩ := List.mem_map.mp hw
    exact h token hmem
  have hspace : " ".toList = [' '] := rfl
  rw [words, String.toList_intercalate, hspace, splitWords_intercalate hws, List.map_map]
  simp

theorem isWord_of_mem_splitWords {cs w : List Char} (hw : w ∈ splitWords cs) : IsWord w := by
  induction cs generalizing w with
  | nil => exact absurd hw List.not_mem_nil
  | cons c cs ih =>
    by_cases hblank : isBlank c
    · rw [splitWords_cons_blank hblank] at hw
      exact ih hw
    · have hc : isBlank c = false := by simpa using hblank
      have hsingle : IsWord [c] := ⟨by simp, by simpa using hc⟩
      cases cs with
      | nil =>
        rw [splitWords_word hsingle, List.mem_singleton] at hw
        exact hw ▸ hsingle
      | cons d cs =>
        rw [splitWords_cons_of_not_blank hc] at hw
        split at hw
        · rcases List.mem_cons.mp hw with rfl | hw
          · exact hsingle
          · exact ih hw
        · cases hrest : splitWords (d :: cs) with
          | nil => simp [hrest] at hw
          | cons v vs =>
            rw [hrest, List.modifyHead_cons] at hw
            rcases List.mem_cons.mp hw with rfl | hw
            · obtain ⟨-, hv⟩ := ih (w := v) (by simp [hrest])
              exact ⟨by simp, List.forall_mem_cons.mpr ⟨hc, hv⟩⟩
            · exact ih (by simp [hrest, hw])

end NotationCalculator.Text
