import NotationCalculator.Proofs.Substitution
import Mathlib.Logic.Relation

/-!
# Changing the blanks of a text

A run of blanks may be exchanged for another, blanks may be put in or taken out at either end of the
text, and in a notation in which some characters are words by themselves also beside these. This
does not change the tokens. Conversely every text is taken by such steps to its tokens with a space
between them, so texts with the same tokens differ in their blanks only. What a calculator makes of
a text depends on no more than the tokens.
-/
namespace NotationCalculator

open Text

namespace Text

/-- One change of the blanks of a text. -/
inductive Respacing (apart : Char → Bool) : List Char → List Char → Prop
  | run (cs : List Char) {bs bs' : List Char} (ds : List Char) :
      bs ≠ [] → bs' ≠ [] → AllBlank bs → AllBlank bs' →
      Respacing apart (cs ++ bs ++ ds) (cs ++ bs' ++ ds)
  | front {bs : List Char} (ds : List Char) : AllBlank bs → Respacing apart (bs ++ ds) ds
  | back (cs : List Char) {bs : List Char} : AllBlank bs → Respacing apart (cs ++ bs) cs
  | before (cs : List Char) {bs : List Char} {c : Char} (ds : List Char) :
      AllBlank bs → apart c = true → Respacing apart (cs ++ bs ++ c :: ds) (cs ++ c :: ds)
  | after (cs : List Char) {c : Char} {bs : List Char} (ds : List Char) :
      AllBlank bs → apart c = true → Respacing apart (cs ++ c :: (bs ++ ds)) (cs ++ c :: ds)

/-- Any number of such changes, each of them made or undone. -/
abbrev Respaced (apart : Char → Bool) : List Char → List Char → Prop :=
  Relation.EqvGen (Respacing apart)

variable {apart : Char → Bool} {b c : Char} {bs cs ds : List Char} {ps : List (List Char)}

section Tokens

theorem spread_append (apart : Char → Bool) (cs ds : List Char) :
    spread apart (cs ++ ds) = spread apart cs ++ spread apart ds := List.flatMap_append

theorem AllBlank.spread (h : AllBlank bs) (hapart : ∀ c, apart c = true → isBlank c = false) :
    spread apart bs = bs := by
  induction bs with
  | nil => rfl
  | cons b bs ih =>
    have hb : ¬ apart b = true := by
      intro htrue
      simpa [h b List.mem_cons_self] using hapart b htrue
    rw [spread_cons, if_neg hb, ih fun c hc => h c (List.mem_cons_of_mem b hc)]
    rfl

/-- A character that stands apart is a word, whatever is on either side of it. -/
theorem splitWords_spread_apart (hapart : ∀ c, apart c = true → isBlank c = false)
    (hc : apart c = true) (cs ds : List Char) :
    splitWords (spread apart (cs ++ c :: ds)) =
      splitWords (spread apart cs) ++ [c] :: splitWords (spread apart ds) := by
  have hspace : isBlank ' ' = true := by decide
  have hword : IsWord [c] := ⟨by simp, by simpa using hapart c hc⟩
  have hspaced : spread apart (c :: ds) = ' ' :: ([c] ++ ' ' :: spread apart ds) := by
    rw [spread_cons, if_pos hc]
    rfl
  rw [spread_append, hspaced, splitWords_append_cons_blank hspace,
    splitWords_append_cons_blank hspace, splitWords_word hword]
  rfl

theorem Respacing.splitWords_eq (h : Respacing apart cs ds)
    (hapart : ∀ c, apart c = true → isBlank c = false) :
    splitWords (spread apart cs) = splitWords (spread apart ds) := by
  cases h with
  | run cs ds hne hne' hbs hbs' =>
    rw [spread_append, spread_append, hbs.spread hapart, hbs.splitWords_between hne,
      spread_append, spread_append, hbs'.spread hapart, hbs'.splitWords_between hne']
  | front ds hbs => rw [spread_append, hbs.spread hapart, hbs.splitWords_append]
  | back cs hbs => rw [spread_append, hbs.spread hapart, hbs.splitWords_behind]
  | before cs ds hbs hc =>
    rw [splitWords_spread_apart hapart hc, splitWords_spread_apart hapart hc, spread_append,
      hbs.spread hapart, hbs.splitWords_behind]
  | after cs ds hbs hc =>
    rw [splitWords_spread_apart hapart hc, splitWords_spread_apart hapart hc, spread_append,
      hbs.spread hapart, hbs.splitWords_append]

theorem Respaced.splitWords_eq (h : Respaced apart cs ds)
    (hapart : ∀ c, apart c = true → isBlank c = false) :
    splitWords (spread apart cs) = splitWords (spread apart ds) := by
  induction h with
  | rel cs ds hstep => exact hstep.splitWords_eq hapart
  | refl cs => rfl
  | symm cs ds _ ih => exact ih.symm
  | trans cs ds es _ _ ih ih' => exact ih.trans ih'

end Tokens

section SpaceBetween

/-- Blanks at the front of what follows a break are blanks beside it. -/
theorem Respacing.append_left (h : Respacing apart cs ds) (hb : isBreak apart b = true)
    (as : List Char) : Respacing apart (as ++ b :: cs) (as ++ b :: ds) := by
  cases h with
  | run cs ds hne hne' hbs hbs' => simpa using run (as ++ b :: cs) ds hne hne' hbs hbs'
  | @front bs ds hbs =>
    cases hapart : apart b with
    | true => exact after as ds hbs hapart
    | false =>
      rw [isBreak, hapart, Bool.or_false] at hb
      have hbbs : AllBlank (b :: bs) := List.forall_mem_cons.mpr ⟨hb, hbs⟩
      simpa using run as ds (by simp) (by simp) hbbs (allBlank_singleton hb)
  | back cs hbs => simpa using back (as ++ b :: ds) hbs
  | before cs ds hbs hc => simpa using before (as ++ b :: cs) ds hbs hc
  | after cs ds hbs hc => simpa using after (as ++ b :: cs) ds hbs hc

theorem Respaced.append_left (h : Respaced apart cs ds) (hb : isBreak apart b = true)
    (as : List Char) : Respaced apart (as ++ b :: cs) (as ++ b :: ds) := by
  induction h with
  | rel cs ds hstep => exact .rel _ _ (hstep.append_left hb as)
  | refl cs => exact .refl _
  | symm cs ds _ ih => exact ih.symm
  | trans cs ds es _ _ ih ih' => exact ih.trans _ _ _ ih'

/-- Where a break follows, a space may be put in front of it. -/
theorem respaced_space_of_head (h : ∀ d ∈ ds.head?, isBreak apart d = true) (cs : List Char) :
    Respaced apart (cs ++ ds) (cs ++ ' ' :: ds) := by
  have hspace : isBlank ' ' = true := by decide
  cases ds with
  | nil => simpa using (Relation.EqvGen.rel _ _ (.back cs (allBlank_singleton hspace))).symm
  | cons d ds =>
    have hd : isBreak apart d = true := h d rfl
    cases hapart : apart d with
    | true =>
      have hstep := Respacing.before cs ds (allBlank_singleton hspace) hapart
      simpa using (Relation.EqvGen.rel _ _ hstep).symm
    | false =>
      rw [isBreak, hapart, Bool.or_false] at hd
      have hboth : AllBlank [' ', d] := by simp [AllBlank, hspace, hd]
      have hstep : Respacing apart (cs ++ [d] ++ ds) (cs ++ [' ', d] ++ ds) :=
        .run cs ds (by simp) (by simp) (allBlank_singleton hd) hboth
      simpa using Relation.EqvGen.rel _ _ hstep

/-- A word and a space before other words are these words with a space between any two. -/
theorem respaced_intercalate_cons (w : List Char) (ws : List (List Char)) :
    Respaced apart (w ++ ' ' :: [' '].intercalate ws) ([' '].intercalate (w :: ws)) := by
  cases ws with
  | nil => exact .rel _ _ (by simpa using .back w (allBlank_singleton (by decide)))
  | cons v ws =>
    rw [List.intercalate_cons_cons, List.append_assoc]
    exact .refl _

/-- The text is brought into its words with a space between any two of them. -/
theorem Cut.respaced (h : Cut apart ps) (hapart : ∀ c, apart c = true → isBlank c = false) :
    Respaced apart ps.flatten ([' '].intercalate (ps.filter (IsWord ·))) := by
  induction h with
  | nil => exact .refl _
  | @single c ps hc _ ih =>
    rw [List.flatten_cons]
    cases hapartc : apart c with
    | true =>
      have hword : IsWord [c] := ⟨by simp, by simpa using hapart c hapartc⟩
      have hspace : AllBlank [' '] := allBlank_singleton (by decide)
      rw [List.filter_cons_of_pos (by simpa using hword)]
      refine .trans _ _ _ (ih.append_left hc []) (.trans _ _ _ ?_ (respaced_intercalate_cons _ _))
      simpa using (Relation.EqvGen.rel _ _ (Respacing.after [] _ hspace hapartc)).symm
    | false =>
      rw [isBreak, hapartc, Bool.or_false] at hc
      have hblank : ¬ IsWord [c] := fun hword => by simp [hword.no_blank c] at hc
      rw [List.filter_cons_of_neg (by simpa using hblank)]
      exact .trans _ _ _ (.rel _ _ (.front _ (allBlank_singleton hc))) ih
  | @run w ps hw hhead _ ih =>
    have hbreak : ∀ d ∈ ps.flatten.head?, isBreak apart d = true := by
      cases ps with
      | nil => simp
      | cons p ps =>
        obtain ⟨d, rfl, hd⟩ := hhead p rfl
        simpa using hd
    have hspace : isBreak apart ' ' = true := by
      rw [isBreak, Bool.or_eq_true]
      exact .inl (by decide)
    rw [List.flatten_cons, List.filter_cons_of_pos (by simpa using hw.isWord)]
    exact .trans _ _ _ (respaced_space_of_head hbreak w)
      (.trans _ _ _ (ih.append_left hspace w) (respaced_intercalate_cons _ _))

theorem respaced_splitWords (hapart : ∀ c, apart c = true → isBlank c = false) (cs : List Char) :
    Respaced apart cs ([' '].intercalate (splitWords (spread apart cs))) := by
  have hcut := cut_pieces apart cs
  have hwords := hcut.splitWords_spread hapart
  have hrespaced := hcut.respaced hapart
  rw [flatten_pieces] at hwords hrespaced
  rwa [hwords]

end SpaceBetween

/-- Texts that have the same words differ in their blanks only. -/
theorem respaced_iff (hapart : ∀ c, apart c = true → isBlank c = false) :
    Respaced apart cs ds ↔ splitWords (spread apart cs) = splitWords (spread apart ds) := by
  refine ⟨fun h => h.splitWords_eq hapart, fun h => ?_⟩
  have hcs := respaced_splitWords hapart cs
  rw [h] at hcs
  exact hcs.trans _ _ _ (respaced_splitWords hapart ds).symm

end Text

/-- The texts have the same tokens and differ in the blanks around them at most. -/
def Dialect.Respaced (dialect : Dialect) (text text' : String) : Prop :=
  Text.Respaced dialect.apart text.toList text'.toList

variable {dialect : Dialect} {text text' : String}

theorem Dialect.respaced_iff :
    dialect.Respaced text text' ↔ dialect.tokens text = dialect.tokens text' := by
  have hinj : Function.Injective (List.map String.ofList) :=
    List.map_injective_iff.mpr fun _ _ h => String.ofList_injective h
  rw [tokens_eq, tokens_eq, hinj.eq_iff]
  exact Text.respaced_iff fun _ => not_blank_of_apart

theorem InOrder.reorder_of_tokens (h : InOrder.tokens text = InOrder.tokens text') :
    reorder text = reorder text' := by
  rw [reorder, reorder, h]

theorem Dialect.value_of_tokens (h : dialect.tokens text = dialect.tokens text') (scope : Scope) :
    dialect.value scope text = dialect.value scope text' := by
  cases dialect with
  | preOrder tables => exact congrArg (PreOrder.value scope) h
  | inOrder =>
    have htokens : InOrder.tokens text = InOrder.tokens text' := h
    show InOrder.value scope text = InOrder.value scope text'
    rw [InOrder.value_eq, InOrder.value_eq, htokens]
  | postOrder tables => exact congrArg (PostOrder.value scope) h

/-- A calculator makes of a text what it makes of any other with the same tokens. -/
theorem Calculator.evaluate_of_tokens {c : Calculator}
    (h : c.dialect.tokens text = c.dialect.tokens text') :
    c.evaluate text = c.evaluate text' := by
  rw [evaluate, evaluate, Dialect.value_of_tokens h]

theorem Calculator.reorder_of_tokens {c : Calculator}
    (h : c.dialect.tokens text = c.dialect.tokens text') : c.reorder text = c.reorder text' := by
  obtain ⟨dialect, settings, last⟩ := c
  cases dialect with
  | inOrder => exact InOrder.reorder_of_tokens h
  | preOrder tables | postOrder tables => rfl

end NotationCalculator
