import NotationCalculator.Proofs.Letters
import NotationCalculator.Proofs.Meaning
import NotationCalculator.Proofs.NumeralCharacters
import NotationCalculator.Proofs.Pieces
import NotationCalculator.Proofs.Reorderable

/-!
# Writing the last answer as a numeral

A token that names the last answer and a numeral of the same value have the same role, so one may
stand for the other, wherever it stands and whether or not the text has a value. This is also so of
the translation into post-order, which moves operands without looking at them: it gives the
translation of the text before, with the same tokens exchanged.
-/
namespace NotationCalculator

open Text

/-- The tokens are equal, or operands of the same value. -/
def Scope.Alike (scope : Scope) (isAnswer : String → Bool) (token token' : String) : Prop :=
  token = token' ∨
    ∃ x, scope.role isAnswer token = .operand x ∧ scope.role isAnswer token' = .operand x

/-- The same error, or the same value with the tokens alike that are left unread. -/
inductive PreOrder.ReadAlike (scope : Scope) : Except Failure (Binary64 × List String) →
    Except Failure (Binary64 × List String) → Prop
  | error (e : Failure) : ReadAlike scope (.error e) (.error e)
  | ok (x : Binary64) {rest rest' : List String} :
      List.Forall₂ (scope.Alike isAnswer) rest rest' →
      ReadAlike scope (.ok (x, rest)) (.ok (x, rest'))

/-- The characters that are words by themselves in texts of this kind. -/
def Dialect.apart : Dialect → Char → Bool
  | .inOrder, c => c = '(' || c = ')'
  | _, _ => false

/-- The text with some of the tokens that name the last answer exchanged for `q`, and all else as it
is. -/
def Dialect.exchangeAnswers (dialect : Dialect) (q : String) (choices : List Bool)
    (text : String) : String :=
  String.ofList (exchange (dialect.isAnswer ∘ String.ofList) q.toList choices
    (pieces dialect.apart text.toList)).flatten

variable {scope : Scope} {dialect : Dialect} {token token' q text : String}
  {tokens tokens' waiting : List String}

section Values

theorem PostOrder.step_alike (h : scope.Alike isAnswer token token') (stack : List Binary64) :
    step scope stack token = step scope stack token' := by
  obtain rfl | ⟨x, hrole, hrole'⟩ := h
  · rfl
  · rw [step_eq_of_role, step_eq_of_role, hrole, hrole']

theorem PostOrder.run_alike (h : List.Forall₂ (scope.Alike isAnswer) tokens tokens')
    (stack : List Binary64) : run scope stack tokens = run scope stack tokens' := by
  induction h generalizing stack with
  | nil => rfl
  | cons htoken _ ih =>
    rw [run, run, List.foldlM_cons, List.foldlM_cons, step_alike htoken]
    exact congrArg (step scope stack _ >>= ·) (funext ih)

theorem PostOrder.value_alike (h : List.Forall₂ (scope.Alike isAnswer) tokens tokens') :
    value scope tokens = value scope tokens' := by
  rw [value, value, run_alike h]

/-- Readings that go on in the same way from alike tokens are alike. -/
theorem PreOrder.ReadAlike.bind {r r' : Except Failure (Binary64 × List String)}
    {f : Binary64 × List String → Except Failure (Binary64 × List String)}
    (h : ReadAlike scope r r') (hf : ∀ x rest rest',
      List.Forall₂ (scope.Alike isAnswer) rest rest' →
      ReadAlike scope (f (x, rest)) (f (x, rest'))) :
    ReadAlike scope (r >>= f) (r' >>= f) := by
  cases h with
  | error e => exact .error e
  | ok x hrest => exact hf x _ _ hrest

theorem PreOrder.ReadAlike.result {rest rest' : List String}
    (h : List.Forall₂ (scope.Alike isAnswer) rest rest') (r : Except Failure Binary64) :
    ReadAlike scope (r >>= fun value => pure (value, rest))
      (r >>= fun value => pure (value, rest')) := by
  cases r with
  | error e => exact .error e
  | ok value => exact .ok value h

theorem PreOrder.readValue_alike (h : List.Forall₂ (scope.Alike isAnswer) tokens tokens')
    (limit : ℕ) :
    ReadAlike scope (readValue scope limit tokens) (readValue scope limit tokens') := by
  induction limit generalizing tokens tokens' with
  | zero => exact .error _
  | succ limit ih =>
    cases h with
    | nil => exact .error _
    | @cons token token' tokens tokens' htoken htokens =>
      obtain rfl | ⟨x, hrole, hrole'⟩ := htoken
      · rw [readValue, readValue]
        split
        · exact .ok _ htokens
        · exact (ih htokens).bind fun x rest rest' hrest => .result hrest _
        · exact (ih htokens).bind fun x rest rest' hrest =>
            (ih hrest).bind fun y after after' hafter => .result hafter _
        · exact .error _
      · rw [readValue, readValue, hrole, hrole']
        exact .ok x htokens

theorem PreOrder.value_alike (h : List.Forall₂ (scope.Alike isAnswer) tokens tokens') :
    value scope tokens = value scope tokens' := by
  have hread := readValue_alike h nestingLimit
  rw [value, value, readAll, readAll]
  revert hread
  generalize readValue scope nestingLimit tokens = r
  generalize readValue scope nestingLimit tokens' = r'
  intro hread
  cases hread with
  | error e => rfl
  | ok x hrest => cases hrest <;> rfl

end Values

section Translation

theorem InOrder.kind_of_isAnswer (h : PostOrder.isAnswer token = true) : kind token = .operand := by
  simp [kind, h]

theorem InOrder.isAnswer_eq_false (h : kind token ≠ .operand) :
    PostOrder.isAnswer token = false := by
  rw [← Bool.not_eq_true]
  exact mt kind_of_isAnswer h

/-- What is put out before anything is exchanged in the rest might as well be put out afterwards. -/
theorem map_append_exchange {released : List String}
    (h : ∀ other ∈ released, PostOrder.isAnswer other = false) (q : String) (choices : List Bool)
    (out : Option (List String)) :
    (out.map (exchange PostOrder.isAnswer q choices)).map (released ++ ·) =
      (out.map (released ++ ·)).map (exchange PostOrder.isAnswer q choices) := by
  cases out with
  | none => rfl
  | some out => exact congrArg some (exchange_append_of_neg h q choices out).symm

/-- The tokens that an operator or a parenthesis puts out or leaves waiting do not name the last
answer, as none that waited before did. -/
theorem InOrder.Moves.isAnswer_eq_false {released kept : List String} {due due' : Bool}
    (h : Moves waiting due token released kept due') (htoken : kind token ≠ .operand)
    (hwaiting : ∀ other ∈ waiting, PostOrder.isAnswer other = false) :
    (∀ other ∈ released, PostOrder.isAnswer other = false) ∧
      ∀ other ∈ kept, PostOrder.isAnswer other = false := by
  have hneg := InOrder.isAnswer_eq_false htoken
  cases h with
  | operand hkind => exact absurd hkind htoken
  | operator hop hspan =>
    obtain ⟨rfl, -⟩ := append_of_span (by simp) hspan
    rw [List.forall_mem_append] at hwaiting
    exact ⟨hwaiting.1, List.forall_mem_cons.mpr ⟨hneg, hwaiting.2⟩⟩
  | opening => exact ⟨by simp, List.forall_mem_cons.mpr ⟨hneg, hwaiting⟩⟩
  | closing hnone =>
    rw [List.forall_mem_append, List.forall_mem_cons] at hwaiting
    exact ⟨hwaiting.1, hwaiting.2.2⟩

/-- The translation moves operands without looking at them, and only operands are exchanged. -/
theorem InOrder.reorderFrom_exchange (hq : kind q = .operand)
    (hwaiting : ∀ other ∈ waiting, PostOrder.isAnswer other = false) (due : Bool)
    (choices : List Bool) :
    reorderFrom waiting due (exchange PostOrder.isAnswer q choices tokens) =
      (reorderFrom waiting due tokens).map (exchange PostOrder.isAnswer q choices) := by
  induction tokens generalizing waiting due choices with
  | nil =>
    have hsame := exchange_append_of_neg hwaiting q choices []
    rw [List.append_nil, exchange_nil, List.append_nil] at hsame
    rw [exchange_nil, reorderFrom]
    split
    · rfl
    · rw [Option.map_some, hsame]
  | cons token tokens ih =>
    by_cases hoperand : kind token = .operand
    · obtain ⟨new, choices', hnew, hrest⟩ :=
        exists_exchange_cons PostOrder.isAnswer q choices token
      have hkind : kind new = .operand := by
        rcases hnew with rfl | ⟨-, rfl⟩
        · exact hoperand
        · exact hq
      rw [hrest]
      cases due with
      | true =>
        rw [reorderFrom_operand hkind, reorderFrom_operand hoperand, ih hwaiting]
        cases reorderFrom waiting false tokens with
        | none => rfl
        | some out => exact congrArg some (hrest out).symm
      | false =>
        rw [reorderFrom_operand_not_due hkind, reorderFrom_operand_not_due hoperand,
          Option.map_none]
    · -- All other tokens stay what they are and do what they did.
      rw [exchange_cons_of_neg (isAnswer_eq_false hoperand)]
      obtain ⟨released, kept, due', hmoves⟩ | hnone := exists_moves waiting due token
      · obtain ⟨hreleased, hkept⟩ := hmoves.isAnswer_eq_false hoperand hwaiting
        rw [hmoves.reorderFrom_cons, hmoves.reorderFrom_cons, ih hkept,
          map_append_exchange hreleased]
      · rw [hnone, hnone, Option.map_none]

end Translation

section Texts

/-- The name of the last answer is of three letters, the first of which no numeral has. -/
theorem toList_of_isAnswer (h : PostOrder.isAnswer token = true) :
    token.toList.map Char.toLower = ['a', 'n', 's'] := by
  have hlower : lower token = "ans" := of_decide_eq_true h
  rw [← toList_lower, hlower]
  rfl

theorem parse?_of_isAnswer (h : PostOrder.isAnswer token = true) : Numeral.parse? token = none := by
  rw [← Option.not_isSome_iff_eq_none]
  intro hnumeral
  have hlist := toList_of_isAnswer h
  have hall := Numeral.forall_isCharacter hnumeral
  cases htoken : token.toList with
  | nil => simp [htoken] at hlist
  | cons c cs =>
    rw [htoken, List.map_cons] at hlist
    have hc := hall c (by simp [htoken])
    have hsmall : 'a'.isLower = true := by decide
    rcases (toLower_eq_iff hsmall).mp (List.cons.inj hlist).1 with rfl | rfl
    · exact absurd hc (by decide)
    · exact absurd hc (by decide)

namespace Dialect

theorem isAnswer_of_isAnswer (h : dialect.isAnswer token = true) :
    PostOrder.isAnswer token = true := by
  cases dialect with
  | preOrder tables =>
    obtain rfl : token = "ans" := of_decide_eq_true h
    decide
  | inOrder | postOrder tables => exact h

theorem role_of_isAnswer (h : dialect.isAnswer token = true) :
    scope.role dialect.isAnswer token = .operand scope.lastAnswer := by
  simp [Scope.role, parse?_of_isAnswer (isAnswer_of_isAnswer h), h]

/-- A numeral of the same value is alike to the last answer. -/
theorem forall₂_alike_exchange (hq : Numeral.parse? q = some scope.lastAnswer)
    (choices : List Bool) (tokens : List String) :
    List.Forall₂ (scope.Alike dialect.isAnswer) tokens
      (exchange dialect.isAnswer q choices tokens) := by
  have hrole : scope.role dialect.isAnswer q = .operand scope.lastAnswer := by
    simp [Scope.role, hq]
  exact forall₂_exchange (fun _ => .inl rfl)
    (fun _ hanswer => .inr ⟨_, role_of_isAnswer hanswer, hrole⟩) choices tokens

theorem tokens_eq (dialect : Dialect) (text : String) :
    dialect.tokens text = (splitWords (spread dialect.apart text.toList)).map String.ofList := by
  have hsame (cs : List Char) : spread (fun _ => false) cs = cs := List.flatMap_singleton' cs
  cases dialect with
  | preOrder tables => exact (congrArg (fun cs => (splitWords cs).map _) (hsame _)).symm
  | inOrder => rfl
  | postOrder tables => exact (congrArg (fun cs => (splitWords cs).map _) (hsame _)).symm

theorem not_blank_of_apart {c : Char} (h : dialect.apart c = true) : isBlank c = false := by
  cases dialect with
  | inOrder =>
    have hparenthesis : c = '(' ∨ c = ')' := by simpa [apart] using h
    rcases hparenthesis with rfl | rfl <;> decide
  | preOrder tables | postOrder tables => cases h

theorem isRun_of_parse (dialect : Dialect) (hq : (Numeral.parse? q).isSome) :
    IsRun dialect.apart q.toList := by
  refine ⟨(Numeral.isWord_of_parse hq).ne_nil, fun c hc => ?_⟩
  have hcharacter := Numeral.forall_isCharacter hq c hc
  refine isBreak_eq_false_iff.mpr ⟨hcharacter.not_blank, ?_⟩
  cases dialect with
  | inOrder => simpa [apart] using hcharacter.ne_parenthesis
  | preOrder tables | postOrder tables => rfl

/-- The tokens of the text are those of the text before, with the same ones exchanged. -/
theorem tokens_exchangeAnswers (dialect : Dialect) (hq : (Numeral.parse? q).isSome)
    (choices : List Bool) (text : String) :
    dialect.tokens (dialect.exchangeAnswers q choices text) =
      exchange dialect.isAnswer q choices (dialect.tokens text) := by
  -- No break is an answer, whose name is of three letters.
  have hsingle (c : Char) : (dialect.isAnswer ∘ String.ofList) [c] = false := by
    rw [← Bool.not_eq_true]
    intro hanswer
    have hlist := toList_of_isAnswer (isAnswer_of_isAnswer hanswer)
    simp at hlist
  rw [tokens_eq, tokens_eq, exchangeAnswers, String.toList_ofList,
    splitWords_spread_exchange (fun _ => not_blank_of_apart) hsingle (isRun_of_parse dialect hq),
    map_exchange, String.ofList_toList]

end Dialect

theorem InOrder.reorderTokens_exchangeAnswers (hq : (Numeral.parse? q).isSome)
    (choices : List Bool) (text : String) :
    reorderTokens (InOrder.tokens (Dialect.inOrder.exchangeAnswers q choices text)) =
      (reorderTokens (InOrder.tokens text)).map (exchange PostOrder.isAnswer q choices) := by
  have hkind : kind q = .operand := by simp [kind, hq]
  have htokens : InOrder.tokens (Dialect.inOrder.exchangeAnswers q choices text) =
      exchange PostOrder.isAnswer q choices (InOrder.tokens text) :=
    Dialect.inOrder.tokens_exchangeAnswers hq choices text
  rw [htokens]
  exact reorderFrom_exchange hkind (by simp) true choices

theorem InOrder.reorder_exchangeAnswers (hq : (Numeral.parse? q).isSome) (choices : List Bool)
    (text : String) :
    reorder (Dialect.inOrder.exchangeAnswers q choices text) =
      (reorder text).map fun translation =>
        " ".intercalate (exchange PostOrder.isAnswer q choices (words translation)) := by
  rw [reorder, reorder, reorderTokens_exchangeAnswers hq]
  cases hlisting : reorderTokens (InOrder.tokens text) with
  | none => rfl
  | some listing =>
    rw [Option.map_some, Option.map_some, Option.map_some, Option.map_some, words_reorder hlisting]

theorem Dialect.value_exchangeAnswers (dialect : Dialect)
    (hq : Numeral.parse? q = some scope.lastAnswer) (choices : List Bool) (text : String) :
    dialect.value scope (dialect.exchangeAnswers q choices text) = dialect.value scope text := by
  have hsome : (Numeral.parse? q).isSome := by simp [hq]
  have htokens := dialect.tokens_exchangeAnswers hsome choices text
  have halike := dialect.forall₂_alike_exchange hq choices
  cases dialect with
  | preOrder tables =>
    exact (congrArg (PreOrder.value scope) htokens).trans (PreOrder.value_alike (halike _)).symm
  | postOrder tables =>
    exact (congrArg (PostOrder.value scope) htokens).trans (PostOrder.value_alike (halike _)).symm
  | inOrder =>
    show InOrder.value scope _ = InOrder.value scope text
    rw [InOrder.value_eq, InOrder.value_eq, InOrder.reorderTokens_exchangeAnswers hsome]
    cases InOrder.reorderTokens (InOrder.tokens text) with
    | none => rfl
    | some listing => exact (PostOrder.value_alike (halike listing)).symm

end Texts

/-- Some of the tokens of a text that name the last answer may be exchanged for a numeral of the
same value. The text comes to the same, be it a value, none at all or a fault, and leaves the same
answer behind; it has a post-order text if it had one before, which is that one with the same tokens
exchanged. -/
theorem Calculator.evaluate_exchangeAnswers (c : Calculator)
    (hq : Numeral.parse? q = some c.lastAnswer) (choices : List Bool) (text : String) :
    let text' := c.dialect.exchangeAnswers q choices text
    c.dialect.tokens text' = exchange c.dialect.isAnswer q choices (c.dialect.tokens text) ∧
    c.evaluate text' = c.evaluate text ∧
    c.reorder text' = (c.reorder text).map fun translation =>
      " ".intercalate (exchange PostOrder.isAnswer q choices (words translation)) := by
  have hsome : (Numeral.parse? q).isSome := by simp [hq]
  have hlast : Numeral.parse? q = some c.scope.lastAnswer := hq
  have hvalue := c.dialect.value_exchangeAnswers hlast choices text
  refine ⟨c.dialect.tokens_exchangeAnswers hsome choices text, ?_, ?_⟩
  · rw [evaluate, evaluate, hvalue]
  · obtain ⟨dialect, settings, last⟩ := c
    cases dialect with
    | inOrder => exact InOrder.reorder_exchangeAnswers hsome choices text
    | preOrder tables | postOrder tables => rfl

/-- The name of the last answer stands twice in the text, once beside a parenthesis. -/
theorem Calculator.evaluate_exchangeAnswers_of_two :
    let c : Calculator := ⟨.inOrder, {}, .ofInt 2⟩
    let text := "(ANS + 1) * ans"
    Numeral.parse? "2.0" = some c.lastAnswer ∧
      c.dialect.exchangeAnswers "2.0" [false, true] text = "(ANS + 1) * 2.0" ∧
      c.evaluate "(ANS + 1) * 2.0" = c.evaluate text ∧
      c.reorder text = some "ANS 1 + ans *" ∧
      c.reorder "(ANS + 1) * 2.0" = some "ANS 1 + 2.0 *" := by
  intro c text
  have hq : Numeral.parse? "2.0" = some c.lastAnswer := by decide +kernel
  have htext : c.dialect.exchangeAnswers "2.0" [false, true] text = "(ANS + 1) * 2.0" := by decide
  have htranslation : c.reorder text = some "ANS 1 + ans *" := by decide
  obtain ⟨-, hvalue, hreorder⟩ := c.evaluate_exchangeAnswers hq [false, true] text
  rw [htext] at hvalue hreorder
  rw [htranslation] at hreorder
  exact ⟨hq, htext, hvalue, htranslation, hreorder.trans (by decide)⟩

end NotationCalculator
