import NotationCalculator.Proofs.Exchange
import NotationCalculator.Proofs.Words

/-!
# Texts in pieces

A text is cut into its words and the single characters that stand between them. These are blanks
and, where a notation has them, characters that are words by themselves. Nothing is lost by this:
the text is all of its pieces one after the other. The words of a text are those of its pieces that
are not blank, and this remains so when words among the pieces have been exchanged for others. Words
can therefore be exchanged within a text that is otherwise left as it is.
-/
namespace NotationCalculator.Text

/-- A character that belongs to no longer word: a blank, or one that stands apart. -/
def isBreak (apart : Char → Bool) (c : Char) : Bool := isBlank c || apart c

/-- The pieces with a character more in front, which joins a word that it touches. -/
def attach (apart : Char → Bool) (c : Char) : List (List Char) → List (List Char)
  | [] => [[c]]
  | p :: ps =>
    if isBreak apart c || p.any (isBreak apart) then [c] :: p :: ps else (c :: p) :: ps

/-- The words and the breaks of a list of characters. -/
def pieces (apart : Char → Bool) (cs : List Char) : List (List Char) := cs.foldr (attach apart) []

/-- The characters with a space on either side of each that stands apart. -/
def spread (apart : Char → Bool) (cs : List Char) : List Char :=
  cs.flatMap fun c => if apart c then [' ', c, ' '] else [c]

/-- A word of a text in which such characters stand apart. -/
structure IsRun (apart : Char → Bool) (w : List Char) : Prop where
  ne_nil : w ≠ []
  no_break : ∀ c ∈ w, isBreak apart c = false

/-- Breaks, and words with a break between any two of them. -/
inductive Cut (apart : Char → Bool) : List (List Char) → Prop
  | nil : Cut apart []
  | single {c : Char} {ps : List (List Char)} :
      isBreak apart c = true → Cut apart ps → Cut apart ([c] :: ps)
  | run {w : List Char} {ps : List (List Char)} :
      IsRun apart w → (∀ p ∈ ps.head?, ∃ c, p = [c] ∧ isBreak apart c = true) → Cut apart ps →
      Cut apart (w :: ps)

variable {apart : Char → Bool} {c : Char} {w : List Char} {ps : List (List Char)}

theorem isBreak_eq_false_iff : isBreak apart c = false ↔ isBlank c = false ∧ apart c = false := by
  rw [isBreak, Bool.or_eq_false_iff]

theorem IsRun.isWord (h : IsRun apart w) : IsWord w :=
  ⟨h.ne_nil, fun c hc => (isBreak_eq_false_iff.mp (h.no_break c hc)).1⟩

theorem IsRun.cons (hc : isBreak apart c = false) (h : ∀ d ∈ w, isBreak apart d = false) :
    IsRun apart (c :: w) :=
  ⟨by simp, List.forall_mem_cons.mpr ⟨hc, h⟩⟩

theorem flatten_attach (apart : Char → Bool) (c : Char) (ps : List (List Char)) :
    (attach apart c ps).flatten = c :: ps.flatten := by
  cases ps with
  | nil => rfl
  | cons p ps =>
    rw [attach]
    split <;> simp

@[simp] theorem flatten_pieces (apart : Char → Bool) (cs : List Char) :
    (pieces apart cs).flatten = cs := by
  induction cs with
  | nil => rfl
  | cons c cs ih =>
    rw [pieces, List.foldr_cons, flatten_attach]
    exact congrArg (c :: ·) ih

theorem Cut.attach (h : Cut apart ps) (c : Char) : Cut apart (attach apart c ps) := by
  cases hc : isBreak apart c with
  | true =>
    cases ps with
    | nil => exact .single hc h
    | cons p ps =>
      rw [Text.attach, hc, Bool.true_or, if_pos rfl]
      exact .single hc h
  | false =>
    have hrun : IsRun apart [c] := .cons hc (by simp)
    cases h with
    | nil => exact .run hrun (by simp) .nil
    | single hd hps =>
      rw [Text.attach, if_pos (by simp [hd])]
      exact .run hrun (by simp [hd]) (.single hd hps)
    | run hw hhead hps =>
      rw [Text.attach, if_neg (by simpa [hc] using hw.no_break)]
      exact .run (.cons hc hw.no_break) hhead hps

/-- Words may be exchanged for other words. -/
theorem Cut.exchange {p : List Char → Bool} {q : List Char} (h : Cut apart ps)
    (hp : ∀ c, p [c] = false) (hq : IsRun apart q) (choices : List Bool) :
    Cut apart (exchange p q choices ps) := by
  induction h generalizing choices with
  | nil => exact .nil
  | single hc _ ih =>
    rw [exchange_cons_of_neg (hp _)]
    exact .single hc (ih choices)
  | @run w ps hw hhead _ ih =>
    obtain ⟨v, choices', hv, hrest⟩ := exists_exchange_cons p q choices w
    have hrun : IsRun apart v := by
      rcases hv with rfl | ⟨-, rfl⟩
      · exact hw
      · exact hq
    rw [hrest]
    refine .run hrun ?_ (ih choices')
    cases ps with
    | nil => simp
    | cons b ps =>
      obtain ⟨c, rfl, hc⟩ := hhead b rfl
      rw [exchange_cons_of_neg (hp c)]
      simpa using hc

/-- What is not a single character is a word. -/
theorem Cut.isWord_of_mem {p : List Char → Bool} (h : Cut apart ps) (hp : ∀ c, p [c] = false) :
    ∀ w ∈ ps, p w = true → IsWord w := by
  induction h with
  | nil => simp
  | single _ _ ih => exact List.forall_mem_cons.mpr ⟨fun htrue => by simp [hp] at htrue, ih⟩
  | run hw _ _ ih => exact List.forall_mem_cons.mpr ⟨fun _ => hw.isWord, ih⟩

theorem cut_pieces (apart : Char → Bool) (cs : List Char) : Cut apart (pieces apart cs) := by
  induction cs with
  | nil => exact .nil
  | cons c cs ih => exact ih.attach c

@[simp] theorem spread_nil (apart : Char → Bool) : spread apart [] = [] := rfl

theorem spread_cons (apart : Char → Bool) (c : Char) (cs : List Char) :
    spread apart (c :: cs) = (if apart c then [' ', c, ' '] else [c]) ++ spread apart cs :=
  List.flatMap_cons

theorem spread_append_of_no_break (h : ∀ c ∈ w, isBreak apart c = false) (cs : List Char) :
    spread apart (w ++ cs) = w ++ spread apart cs := by
  induction w with
  | nil => rfl
  | cons c w ih =>
    rw [List.forall_mem_cons] at h
    rw [List.cons_append, spread_cons, ih h.2, if_neg (by simp [(isBreak_eq_false_iff.mp h.1).2])]
    rfl

/-- What follows a word begins with a blank once it is spread. -/
theorem isBlank_of_mem_head_spread (h : ∀ p ∈ ps.head?, ∃ c, p = [c] ∧ isBreak apart c = true) :
    ∀ b ∈ (spread apart ps.flatten).head?, isBlank b = true := by
  have hspace : isBlank ' ' = true := by decide
  cases ps with
  | nil => simp
  | cons p ps =>
    obtain ⟨c, rfl, hc⟩ := h p rfl
    rw [List.flatten_cons, List.singleton_append, spread_cons]
    cases hc' : apart c with
    | true => simpa using hspace
    | false =>
      rw [isBreak, hc', Bool.or_false] at hc
      simpa using hc

/-- The words of a text are those of its pieces that are not blank. -/
theorem Cut.splitWords_spread (h : Cut apart ps)
    (hapart : ∀ c, apart c = true → isBlank c = false) :
    splitWords (spread apart ps.flatten) = ps.filter (IsWord ·) := by
  have hspace : isBlank ' ' = true := by decide
  induction h with
  | nil => rfl
  | @single c ps hc _ ih =>
    rw [List.flatten_cons, List.singleton_append, spread_cons]
    cases hc' : apart c with
    | true =>
      have hword : IsWord [c] := ⟨by simp, by simpa using hapart c hc'⟩
      have hspaced : (if true = true then [' ', c, ' '] else [c]) ++ spread apart ps.flatten =
          ' ' :: ([c] ++ ' ' :: spread apart ps.flatten) := rfl
      rw [hspaced, splitWords_cons_blank hspace, splitWords_append_cons_blank hspace,
        splitWords_word hword, ih, List.filter_cons_of_pos (by simpa using hword)]
      rfl
    | false =>
      rw [isBreak, hc', Bool.or_false] at hc
      have hblank : ¬ IsWord [c] := fun hword => by simp [hword.no_blank c] at hc
      rw [if_neg (by simp), List.singleton_append, splitWords_cons_blank hc, ih,
        List.filter_cons_of_neg (by simpa using hblank)]
  | run hw hhead _ ih =>
    rw [List.flatten_cons, spread_append_of_no_break hw.no_break,
      splitWords_append hw.isWord (isBlank_of_mem_head_spread hhead), ih,
      List.filter_cons_of_pos (by simpa using hw.isWord)]

/-- Exchanging words within the text exchanges them among its words. -/
theorem splitWords_spread_exchange {p : List Char → Bool} {q : List Char}
    (hapart : ∀ c, apart c = true → isBlank c = false) (hp : ∀ c, p [c] = false)
    (hq : IsRun apart q) (choices : List Bool) (cs : List Char) :
    splitWords (spread apart (exchange p q choices (pieces apart cs)).flatten) =
      exchange p q choices (splitWords (spread apart cs)) := by
  have hcut := cut_pieces apart cs
  have hwords := hcut.splitWords_spread hapart
  rw [flatten_pieces] at hwords
  rw [(hcut.exchange hp hq choices).splitWords_spread hapart, hwords]
  refine filter_exchange (by simpa using hq.isWord) ?_ choices
  intro w hmem hw
  simpa using hcut.isWord_of_mem hp w hmem hw

end NotationCalculator.Text
