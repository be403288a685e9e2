import NotationCalculator.Console
import NotationCalculator.Proofs.Respacing
import Mathlib.Data.List.DropRight

/-!
# Raw lines and tidy ones

A raw line is made tidy before it is answered: the blanks at its ends are taken away, all kinds of
them, and then each run of spaces and tabs is made one space. A tidy line stays as it is when it is
made tidy once more, for neither end of it is blank and it has no tab and no space beside another.
Other blanks within the line stay, so a tidy line may still have runs of blanks. It has the tokens
of the raw one in every notation, so it makes no difference to what a calculator answers.
-/
namespace NotationCalculator

open Text

namespace Text

/-- Neither end is blank. -/
structure IsTrim (cs : List Char) : Prop where
  head : ∀ b ∈ cs.head?, isBlank b = false
  last : ∀ b ∈ cs.getLast?, isBlank b = false

/-- A tab as a space, and every other character as it is. -/
def untab (c : Char) : Char := if isSpaceOrTab c then ' ' else c

variable {apart : Char → Bool} {c : Char} {cs : List Char}

section Trimming

theorem trim_eq_rdropWhile (cs : List Char) :
    trim cs = (cs.dropWhile isBlank).rdropWhile isBlank := rfl

theorem IsTrim.trim_eq (h : IsTrim cs) : trim cs = cs := by
  have hfront : cs.dropWhile isBlank = cs := by
    cases cs with
    | nil => rfl
    | cons c cs => exact List.dropWhile_cons_of_neg (by simpa using h.head c rfl)
  have hback : cs.rdropWhile isBlank = cs := List.rdropWhile_eq_self_iff.mpr fun hne => by
    simpa using h.last _ (List.getLast?_eq_some_getLast hne)
  rw [trim_eq_rdropWhile, hfront, hback]

theorem isTrim_trim (cs : List Char) : IsTrim (trim cs) := by
  rw [trim_eq_rdropWhile]
  constructor
  · intro b hb
    have hfront := List.head?_dropWhile_not isBlank cs
    obtain ⟨rest, hrest⟩ := List.rdropWhile_prefix isBlank (cs.dropWhile isBlank)
    rw [← hrest, List.head?_append, Option.mem_def.mp hb] at hfront
    exact hfront
  · intro b hb
    obtain ⟨hne, rfl⟩ := List.mem_getLast?_eq_getLast hb
    simpa using List.rdropWhile_last_not isBlank _ hne

theorem respaced_trim (cs : List Char) : Respaced apart cs (trim cs) := by
  have hfront : AllBlank (cs.takeWhile isBlank) := fun _ hb => List.mem_takeWhile_imp hb
  have hback : AllBlank ((cs.dropWhile isBlank).rtakeWhile isBlank) :=
    fun _ hb => List.mem_rtakeWhile_imp hb
  have hdrop : Respacing apart (cs.takeWhile isBlank ++ cs.dropWhile isBlank)
      (cs.dropWhile isBlank) := .front _ hfront
  have htrim : Respacing apart (trim cs ++ (cs.dropWhile isBlank).rtakeWhile isBlank)
      (trim cs) := .back _ hback
  rw [List.takeWhile_append_dropWhile] at hdrop
  rw [trim_eq_rdropWhile, List.rdropWhile_append_rtakeWhile] at htrim
  exact .trans _ _ _ (.rel _ _ hdrop) (.rel _ _ htrim)

end Trimming

section Squeezing

/-- A space or a tab goes where another follows, and stays as a space otherwise. -/
theorem squeeze_cons (c : Char) (cs : List Char) :
    squeeze (c :: cs) =
      if isSpaceOrTab c && cs.head?.any isSpaceOrTab then squeeze cs
      else untab c :: squeeze cs := by
  rw [squeeze.eq_def, untab]
  dsimp only
  cases hc : isSpaceOrTab c with
  | false => rfl
  | true =>
    cases cs with
    | nil => rfl
    | cons d cs => cases hd : isSpaceOrTab d <;> simp [hd]

@[simp] theorem isSpaceOrTab_untab (c : Char) : isSpaceOrTab (untab c) = isSpaceOrTab c := by
  unfold untab
  split
  · next h => rw [h]; rfl
  · rfl

@[simp] theorem untab_untab (c : Char) : untab (untab c) = untab c := by
  rw [untab, isSpaceOrTab_untab]
  unfold untab
  split <;> rfl

theorem isBlank_of_isSpaceOrTab (h : isSpaceOrTab c = true) : isBlank c = true := by
  rw [isSpaceOrTab, Bool.or_eq_true, decide_eq_true_eq, decide_eq_true_eq] at h
  rcases h with rfl | rfl <;> decide

@[simp] theorem isBlank_untab (c : Char) : isBlank (untab c) = isBlank c := by
  unfold untab
  split
  · next h => rw [isBlank_of_isSpaceOrTab h]; decide
  · rfl

theorem head?_squeeze (cs : List Char) : (squeeze cs).head? = cs.head?.map untab := by
  induction cs with
  | nil => rfl
  | cons c cs ih =>
    rw [squeeze_cons]
    split
    · next h =>
      cases cs with
      | nil => simp at h
      | cons d cs =>
        have hboth : isSpaceOrTab c = true ∧ isSpaceOrTab d = true := by simpa using h
        rw [ih]
        simp [untab, hboth]
    · rfl

theorem getLast?_squeeze (cs : List Char) : (squeeze cs).getLast? = cs.getLast?.map untab := by
  induction cs with
  | nil => rfl
  | cons c cs ih =>
    rw [squeeze_cons]
    split
    · next h =>
      cases cs with
      | nil => simp at h
      | cons d cs => rw [ih, List.getLast?_cons_cons]
    · rw [List.getLast?_cons, ih, List.getLast?_cons]
      cases cs.getLast? <;> rfl

theorem squeeze_squeeze (cs : List Char) : squeeze (squeeze cs) = squeeze cs := by
  induction cs with
  | nil => rfl
  | cons c cs ih =>
    rw [squeeze_cons]
    split
    · exact ih
    · next h =>
      have hany : ((squeeze cs).head?.any isSpaceOrTab) = cs.head?.any isSpaceOrTab := by
        rw [head?_squeeze]
        cases cs.head? <;> simp
      rw [squeeze_cons, isSpaceOrTab_untab, hany, if_neg h, untab_untab, ih]

theorem IsTrim.squeeze (h : IsTrim cs) : IsTrim (squeeze cs) := by
  constructor
  · rw [head?_squeeze]
    simpa using h.head
  · rw [getLast?_squeeze]
    simpa using h.last

/-- The text before it does not matter, as only runs of blanks are exchanged. -/
theorem respaced_squeeze (before cs : List Char) :
    Respaced apart (before ++ cs) (before ++ Text.squeeze cs) := by
  induction cs generalizing before with
  | nil => exact .refl _
  | cons c cs ih =>
    rw [squeeze_cons]
    split
    · next h =>
      cases cs with
      | nil => simp at h
      | cons d cs =>
        have hboth : isSpaceOrTab c = true ∧ isSpaceOrTab d = true := by simpa using h
        have hd : AllBlank [d] := allBlank_singleton (isBlank_of_isSpaceOrTab hboth.2)
        have hcd : AllBlank [c, d] := List.forall_mem_cons.mpr ⟨isBlank_of_isSpaceOrTab hboth.1, hd⟩
        have hstep : Respacing apart (before ++ [c, d] ++ cs) (before ++ [d] ++ cs) :=
          .run before cs (by simp) (by simp) hcd hd
        rw [List.append_assoc, List.append_assoc] at hstep
        exact .trans _ _ _ (.rel _ _ hstep) (ih before)
    · have hrest := ih (before ++ [untab c])
      rw [List.append_assoc, List.append_assoc] at hrest
      refine .trans _ _ _ ?_ hrest
      cases hc : isSpaceOrTab c with
      | false =>
        rw [untab, hc]
        exact .refl _
      | true =>
        have hblank : isBlank c = true := isBlank_of_isSpaceOrTab hc
        have hstep : Respacing apart (before ++ [c] ++ cs) (before ++ [untab c] ++ cs) :=
          .run before cs (by simp) (by simp) (allBlank_singleton hblank)
            (allBlank_singleton (by rw [isBlank_untab, hblank]))
        rw [List.append_assoc, List.append_assoc] at hstep
        exact .rel _ _ hstep

end Squeezing

end Text

namespace Console

theorem tidy_tidy (raw : String) : tidy (tidy raw) = tidy raw := by
  rw [tidy, tidy, String.toList_ofList, (isTrim_trim raw.toList).squeeze.trim_eq, squeeze_squeeze]

theorem respaced_tidy (dialect : Dialect) (raw : String) : dialect.Respaced raw (tidy raw) := by
  rw [Dialect.Respaced, tidy, String.toList_ofList]
  exact .trans _ _ _ (respaced_trim raw.toList) (respaced_squeeze [] (trim raw.toList))

/-- Texts that differ in the blanks around their tokens come to the same, and leave the same
calculator behind. A raw line is one of them and its tidy form another, which is tidy for good. -/
theorem evaluate_respaced {c : Calculator} {text text' : String}
    (h : c.dialect.Respaced text text') (raw : String) :
    (c.evaluate text = c.evaluate text' ∧ c.reorder text = c.reorder text') ∧
    tidy (tidy raw) = tidy raw ∧ c.dialect.Respaced raw (tidy raw) ∧
    c.evaluate (tidy raw) = c.evaluate raw ∧ c.reorder (tidy raw) = c.reorder raw := by
  have htokens := Dialect.respaced_iff.mp h
  have htidy := Dialect.respaced_iff.mp (respaced_tidy c.dialect raw)
  exact ⟨⟨Calculator.evaluate_of_tokens htokens, Calculator.reorder_of_tokens htokens⟩,
    tidy_tidy raw, respaced_tidy c.dialect raw, (Calculator.evaluate_of_tokens htidy).symm,
    (Calculator.reorder_of_tokens htidy).symm⟩

/-- Parentheses with blanks beside them and without, blanks of several kinds, and a raw line in
which a line separator stays. -/
theorem evaluate_respaced_of_parentheses :
    let c : Calculator := ⟨.inOrder, {}, .ofInt 2⟩
    let text := "(1 + 2) * ans"
    let text' := "\t( 1\u2003+ \u00a02 )\n\r*  ans "
    let raw := "\u3000 3 \t+\u2028 \tANS\x1c"
    c.dialect.Respaced text text' ∧ c.evaluate text = c.evaluate text' ∧
      c.reorder text = some "1 2 + ans *" ∧ c.reorder text' = some "1 2 + ans *" ∧
      tidy raw = "3 +\u2028 ANS" ∧ c.evaluate "3 +\u2028 ANS" = c.evaluate raw := by
  intro c text text' raw
  have hspaced : c.dialect.Respaced text text' := Dialect.respaced_iff.mpr (by decide)
  have htidy : tidy raw = "3 +\u2028 ANS" := by decide
  have htranslation : c.reorder text = some "1 2 + ans *" := by decide
  obtain ⟨⟨hvalue, hreorder⟩, -, -, hraw, -⟩ := evaluate_respaced hspaced raw
  exact ⟨hspaced, hvalue, htranslation, hreorder.symm.trans htranslation, htidy, htidy ▸ hraw⟩

end Console

end NotationCalculator
