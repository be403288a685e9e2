import NotationCalculator.Proofs.StackReading
import NotationCalculator.Proofs.Translation
import NotationCalculator.Proofs.Words

/-!
# The value of in-order texts

The post-order text that an in-order one is brought into has the same tokens, parentheses apart, so
its words are these tokens. Its value is therefore that of the listing, and a text that denotes a
tree has the value of this tree.
-/
namespace NotationCalculator.InOrder

open Text

variable {scope : Scope} {token text : String} {tokens waiting listing : List String} {due : Bool}

def isParenthesis (token : String) : Bool := token = "(" || token = ")"

theorem isParenthesis_eq_false (h : kind token = .operand ∨ IsOperator token) :
    isParenthesis token = false := by
  simp only [isParenthesis, Bool.or_eq_false_iff, decide_eq_false_iff_not]
  constructor
  · rintro rfl
    simp [IsOperator, kind_opening] at h
  · rintro rfl
    simp [IsOperator, kind_closing] at h

theorem filter_of_no_opening {released : List String} (h : "(" ∉ released) :
    released.filter (· ≠ "(") = released := by
  rw [List.filter_eq_self]
  intro other hother
  simp only [ne_eq, decide_not, Bool.not_eq_true', decide_eq_false_iff_not]
  rintro rfl
  exact h hother

/-- No token is lost, repeated or made up on the way, parentheses apart. -/
theorem reorderFrom_perm (h : reorderFrom waiting due tokens = some listing) :
    listing.Perm (waiting.filter (· ≠ "(") ++ tokens.filter (!isParenthesis ·)) := by
  induction tokens generalizing waiting due listing with
  | nil =>
    rw [reorderFrom] at h
    split at h
    · cases h
    · next hnone =>
      obtain rfl := Option.some.inj h
      rw [filter_of_no_opening hnone, List.filter_nil, List.append_nil]
  | cons token tokens ih =>
    rcases reorderFrom_cons_cases h with ⟨hkind, -, out, hread, rfl⟩ |
      ⟨hop, released, kept, out, rfl, hnone, hread, rfl⟩ | ⟨rfl, -, hread⟩ |
      ⟨rfl, released, kept, out, rfl, hnone, hread, rfl⟩
    · have hkeep := isParenthesis_eq_false (.inl hkind)
      rw [List.filter_cons_of_pos (by simp [hkeep])]
      exact ((ih hread).cons token).trans List.perm_middle.symm
    · have hkeep := isParenthesis_eq_false (.inr hop)
      have hout := ih hread
      rw [List.filter_cons_of_pos (by simp [hop.ne_opening])] at hout
      rw [List.filter_append, filter_of_no_opening hnone, List.filter_cons_of_pos (by simp [hkeep]),
        List.append_assoc]
      exact (hout.trans List.perm_middle.symm).append_left released
    · have hout := ih hread
      rw [List.filter_cons_of_neg (by simp)] at hout
      rwa [List.filter_cons_of_neg (by simp [isParenthesis])]
    · rw [List.filter_append, filter_of_no_opening hnone, List.filter_cons_of_neg (by simp),
        List.filter_cons_of_neg (by simp [isParenthesis]), List.append_assoc]
      exact (ih hread).append_left released

theorem isWord_of_mem_tokens (h : token ∈ InOrder.tokens text) : IsWord token.toList := by
  obtain ⟨w, hw, rfl⟩ := List.mem_map.mp h
  rw [String.toList_ofList]
  exact isWord_of_mem_splitWords hw

theorem mem_tokens_of_mem_listing (h : reorderTokens (InOrder.tokens text) = some listing)
    (htoken : token ∈ listing) : token ∈ InOrder.tokens text := by
  have hmem := (reorderFrom_perm h).mem_iff.mp htoken
  rw [List.filter_nil, List.nil_append] at hmem
  exact List.mem_of_mem_filter hmem

/-- The words of the post-order text are the tokens of the listing. -/
theorem words_reorder (h : reorderTokens (InOrder.tokens text) = some listing) :
    words (" ".intercalate listing) = listing :=
  words_intercalate fun _ htoken => isWord_of_mem_tokens (mem_tokens_of_mem_listing h htoken)

/-- Reading the post-order text is reading the listing. -/
theorem value_eq (scope : Scope) (text : String) :
    value scope text =
      match reorderTokens (InOrder.tokens text) with
      | some listing => PostOrder.value scope listing
      | none => .error .undefined := by
  unfold value reorder
  cases h : reorderTokens (InOrder.tokens text) with
  | none => rfl
  | some listing =>
    rw [Option.map_some, Option.getD_some, words_reorder h]

/-- With the standard operators, a token has the role of its kind. -/
theorem role_eq_of_kind (hs : scope.tables = .standard) (token : String) :
    match kind token with
    | .operand => ∃ x, scope.role PostOrder.isAnswer token = .operand x
    | .unary => scope.role PostOrder.isAnswer token = .unary
    | .binary => scope.role PostOrder.isAnswer token = .binary
    | _ => scope.role PostOrder.isAnswer token = .unknown := by
  unfold kind Scope.role
  rw [hs]
  cases Numeral.parse? token with
  | some x => exact ⟨x, rfl⟩
  | none =>
    simp only [Option.isSome_none, Bool.false_or]
    cases PostOrder.isAnswer token with
    | true => exact ⟨scope.lastAnswer, rfl⟩
    | false =>
      simp only [Bool.false_eq_true, if_false]
      split_ifs <;> rfl

theorem fits_wrap {operators : List String} {t : Tree} (hs : scope.tables = .standard)
    (hops : ∀ operator ∈ operators, kind operator = .unary)
    (ht : t.Fits scope PostOrder.isAnswer) :
    (wrap operators t).Fits scope PostOrder.isAnswer := by
  induction operators with
  | nil => exact ht
  | cons operator operators ih =>
    have hrole := role_eq_of_kind hs operator
    rw [hops operator List.mem_cons_self] at hrole
    exact ⟨hrole, ih (fun other hother => hops other (List.mem_cons_of_mem operator hother))⟩

/-- The tokens of a tree that is denoted have their roles. -/
theorem Denotes.fits {phrase : Phrase} {t : Tree} (h : Denotes phrase tokens t) (scope : Scope)
    (hs : scope.tables = .standard) : t.Fits scope PostOrder.isAnswer := by
  have hbinary : ∀ operator ∈ ["+", "-", "*", "/", "%", "^"],
      scope.role PostOrder.isAnswer operator = .binary := by
    intro operator hmem
    have hall : ∀ name ∈ ["+", "-", "*", "/", "%", "^"], kind name = .binary := by decide
    have hrole := role_eq_of_kind hs operator
    rwa [hall operator hmem] at hrole
  induction h with
  | @operand token hkind =>
    have hrole := role_eq_of_kind hs token
    rwa [hkind] at hrole
  | group _ ih => exact ih
  | wrapped hops _ ih => exact fits_wrap hs hops ih
  | ofUnit _ ih => exact ih
  | power _ _ ihLeft ihRight => exact ⟨hbinary "^" (by decide), ihLeft, ihRight⟩
  | ofPower _ ih => exact ih
  | @product _ _ _ _ operator hmem _ _ ihLeft ihRight =>
    have hsub : ∀ name ∈ ["*", "/", "%"], name ∈ ["+", "-", "*", "/", "%", "^"] := by decide
    exact ⟨hbinary operator (hsub operator hmem), ihLeft, ihRight⟩
  | ofProduct _ ih => exact ih
  | @sum _ _ _ _ operator hmem _ _ ihLeft ihRight =>
    have hsub : ∀ name ∈ ["+", "-"], name ∈ ["+", "-", "*", "/", "%", "^"] := by decide
    exact ⟨hbinary operator (hsub operator hmem), ihLeft, ihRight⟩

/-- A phrase denotes one tree only. -/
theorem Denotes.unique {phrase phrase' : Phrase} {t u : Tree} (ht : Denotes phrase tokens t)
    (hu : Denotes phrase' tokens u) : t = u := by
  let scope : Scope := ⟨.standard, .radians, .nan⟩
  have hlisting : t.postOrder = u.postOrder :=
    Option.some.inj ((reorderTokens_of_denotes ht).symm.trans (reorderTokens_of_denotes hu))
  exact Tree.postOrder_inj (ht.fits scope rfl) (hu.fits scope rfl) hlisting

/-- The value of a text that denotes a tree is the tree's. -/
theorem value_of_denotes {phrase : Phrase} {t : Tree} (hs : scope.tables = .standard)
    (h : Denotes phrase (InOrder.tokens text) t) :
    value scope text = (t.eval scope PostOrder.isAnswer).mapError .fault := by
  rw [value_eq, reorderTokens_of_denotes h]
  exact PostOrder.value_postOrder (h.fits scope hs)

/-- An in-order text is brought into the post-order text of the only tree that it denotes, and the
value of this tree under the angle unit and the last answer is the new last answer. -/
theorem evaluate_of_denotes {text : String} {t : Tree}
    (h : Denotes .sum (InOrder.tokens text) t) (settings : Settings) (last : Binary64) :
    let c : Calculator := ⟨.inOrder, settings, last⟩
    (∀ u, Denotes .sum (InOrder.tokens text) u → u = t) ∧
    c.reorder text = some (" ".intercalate t.postOrder) ∧
    ∃ x, t.eval c.scope PostOrder.isAnswer = .ok x ∧
      c.evaluate text = (.ok x, { c with lastAnswer := x }) := by
  intro c
  have hreorder : c.reorder text = some (" ".intercalate t.postOrder) := by
    show (reorderTokens (InOrder.tokens text)).map (" ".intercalate ·) = _
    rw [reorderTokens_of_denotes h, Option.map_some]
  obtain ⟨x, hx⟩ := Tree.exists_eval_eq_ok c.scope
    OperatorTables.standard_faultFree PostOrder.isAnswer t
  have hvalue : value c.scope text = .ok x := by
    rw [value_of_denotes rfl h, hx]
    rfl
  exact ⟨fun u hu => hu.unique h, hreorder, x, hx,
    Calculator.evaluate_of_settle (congrArg Failure.settle hvalue)⟩

/-- Operators of one operand on both sides of an atom, and parentheses that touch a token. -/
theorem evaluate_root_of_factorial :
    let c : Calculator := ⟨.inOrder, {}, .nan⟩
    let t : Tree := .binary "^" (.unary "sqrt" (.unary "!" (.operand "4"))) (.operand "ANS")
    Denotes .sum (InOrder.tokens "sqrt 4 ! ^ (ANS)") t ∧
      c.reorder "sqrt 4 ! ^ (ANS)" = some "4 ! sqrt ANS ^" ∧
      ∃ x, t.eval c.scope PostOrder.isAnswer = .ok x ∧
        c.evaluate "sqrt 4 ! ^ (ANS)" = (.ok x, { c with lastAnswer := x }) := by
  intro c t
  have hroot : Denotes .unit (["sqrt"] ++ ["4"] ++ ["!"])
      (wrap (["sqrt"] ++ ["!"]) (.operand "4")) :=
    .wrapped (by decide) (.operand (by decide))
  have hanswer : Denotes .sum ["ANS"] (.operand "ANS") :=
    .ofProduct (.ofPower (.ofUnit (Denotes.operand (by decide)).ofAtom))
  have hpower : Denotes .sum ["sqrt", "4", "!", "^", "(", "ANS", ")"] t :=
    .ofProduct (.ofPower (.power hroot (.ofUnit (Denotes.group hanswer).ofAtom)))
  have htokens : InOrder.tokens "sqrt 4 ! ^ (ANS)" = ["sqrt", "4", "!", "^", "(", "ANS", ")"] := by
    decide
  rw [← htokens] at hpower
  obtain ⟨-, hreorder, hvalue⟩ := evaluate_of_denotes hpower {} .nan
  exact ⟨hpower, hreorder, hvalue⟩

end NotationCalculator.InOrder
