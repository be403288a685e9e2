import NotationCalculator.Proofs.Placement
import NotationCalculator.Proofs.StackReading

/-!
# Which in-order texts are accepted

A text is accepted when there is a post-order text for it that lists a tree. Such a list has one
operand more than operators of two operands. Operands are taken only where they are due, so there
are never more of them than that, and there are as many only if they and these operators take turns.
Then all tokens stand where they may, with one exception: a parenthesis may be closed where an
operand is due, and this operand then follows it. So the accepted texts are the expressions and,
besides them, texts with parentheses around what is not an expression.
-/
namespace NotationCalculator.InOrder

/-- There is a post-order text, and one value is left when it has been read. -/
def Accepted (c : Calculator) (text : String) : Prop :=
  ∃ translation, c.reorder text = some translation ∧
    PostOrder.Accepts c.scope (Text.words translation)

/-- What a token adds to the number of values on the stack; an operator of one operand adds
nothing. -/
def weight (token : String) : ℤ :=
  match kind token with
  | .operand => 1
  | .binary => -1
  | _ => 0

/-- How many operands there are more than operators of two operands. -/
def surplus : List String → ℤ
  | [] => 0
  | token :: tokens => weight token + surplus tokens

variable {scope : Scope} {waiting tokens listing : List String} {due : Bool} {token text : String}
  {t : Tree}

theorem weight_operand (h : kind token = .operand) : weight token = 1 := by
  unfold weight
  rw [h]

theorem weight_unary (h : kind token = .unary) : weight token = 0 := by
  unfold weight
  rw [h]

theorem weight_binary (h : kind token = .binary) : weight token = -1 := by
  unfold weight
  rw [h]

theorem weight_opening : weight "(" = 0 := by decide

theorem weight_closing : weight ")" = 0 := by decide

@[simp] theorem surplus_nil : surplus [] = 0 := rfl

@[simp] theorem surplus_cons (token : String) (tokens : List String) :
    surplus (token :: tokens) = weight token + surplus tokens := rfl

@[simp] theorem surplus_append (tokens more : List String) :
    surplus (tokens ++ more) = surplus tokens + surplus more := by
  induction tokens with
  | nil => simp
  | cons token tokens ih => rw [List.cons_append, surplus_cons, surplus_cons, ih, Int.add_assoc]

theorem surplus_perm {more : List String} (h : tokens.Perm more) :
    surplus tokens = surplus more := by
  induction h with
  | nil => rfl
  | cons token _ ih => rw [surplus_cons, surplus_cons, ih]
  | swap token other tokens => simp only [surplus_cons, Int.add_left_comm]
  | trans _ _ ih ih' => exact ih.trans ih'

theorem surplus_filter (tokens : List String) :
    surplus (tokens.filter (!isParenthesis ·)) = surplus tokens := by
  induction tokens with
  | nil => rfl
  | cons token tokens ih =>
    cases hparen : isParenthesis token with
    | false => rw [List.filter_cons_of_pos (by simp [hparen]), surplus_cons, surplus_cons, ih]
    | true =>
      have hweight : weight token = 0 := by
        simp only [isParenthesis, Bool.or_eq_true, decide_eq_true_eq] at hparen
        rcases hparen with rfl | rfl
        · exact weight_opening
        · exact weight_closing
      rw [List.filter_cons_of_neg (by simp [hparen]), surplus_cons, hweight, Int.zero_add, ih]

/-- With the standard operators, the kind of a token is its role. -/
theorem kind_eq_of_role (hs : scope.tables = .standard) (token : String) :
    match scope.role PostOrder.isAnswer token with
    | .operand _ => kind token = .operand
    | .unary => kind token = .unary
    | .binary => kind token = .binary
    | .unknown => kind token ∉ [.operand, .unary, .binary] := by
  have hrole := role_eq_of_kind hs token
  cases hkind : kind token with
  | operand =>
    rw [hkind] at hrole
    obtain ⟨x, hx⟩ := hrole
    rw [hx]
  | unary | binary =>
    rw [hkind] at hrole
    rw [hrole]
  | opening | closing | unknown =>
    rw [hkind] at hrole
    rw [hrole]
    simp

/-- A tree has one leaf more than operators of two operands. -/
theorem surplus_postOrder (hs : scope.tables = .standard) (ht : t.Fits scope PostOrder.isAnswer) :
    surplus t.postOrder = 1 := by
  induction t with
  | operand token =>
    obtain ⟨x, hrole⟩ := ht
    have hkind := kind_eq_of_role hs token
    rw [hrole] at hkind
    simp [Tree.postOrder, weight_operand hkind]
  | unary operator argument ih =>
    obtain ⟨hrole, harg⟩ := ht
    have hkind := kind_eq_of_role hs operator
    rw [hrole] at hkind
    simp [Tree.postOrder, weight_unary hkind, ih harg]
  | binary operator left right ihLeft ihRight =>
    obtain ⟨hrole, hleft, hright⟩ := ht
    have hkind := kind_eq_of_role hs operator
    rw [hrole] at hkind
    simp [Tree.postOrder, weight_binary hkind, ihLeft hleft, ihRight hright]

/-- Operands are taken only where they are due. -/
theorem surplus_le (h : reorderFrom waiting due tokens = some listing) :
    surplus tokens ≤ due.toNat := by
  induction tokens generalizing waiting due listing with
  | nil => simp
  | cons token tokens ih =>
    rw [surplus_cons]
    obtain ⟨hkind, rfl, out, hread, rfl⟩ |
      ⟨hkind | hkind, released, kept, out, rfl, -, hread, rfl⟩ | ⟨rfl, rfl, hread⟩ |
      ⟨rfl, released, kept, out, rfl, -, hread, rfl⟩ := reorderFrom_cons_cases h
    · have hrest := ih hread
      rw [Bool.toNat_false] at hrest
      rw [weight_operand hkind, Bool.toNat_true]
      omega
    · have hrest := ih hread
      simp only [hkind, reduceCtorEq, decide_false, Bool.or_false] at hrest
      rwa [weight_unary hkind, Int.zero_add]
    · have hrest := ih hread
      simp only [hkind, decide_true, Bool.or_true, Bool.toNat_true] at hrest
      rw [weight_binary hkind]
      omega
    · have hrest := ih hread
      rwa [weight_opening, Int.zero_add]
    · have hrest := ih hread
      rwa [weight_closing, Int.zero_add]

/-- When there are as many operands as there can be, no operator of two operands stands where an
operand is due: two more would be needed after it than can come. -/
theorem not_due_of_surplus (h : reorderFrom waiting true tokens = some listing)
    (hsurplus : -1 + surplus tokens = due.toNat) : due = false ∧ surplus tokens = true.toNat := by
  have hle := surplus_le h
  rw [Bool.toNat_true] at hle ⊢
  cases due with
  | true =>
    rw [Bool.toNat_true] at hsurplus
    omega
  | false =>
    rw [Bool.toNat_false] at hsurplus
    exact ⟨rfl, by omega⟩

/-- When there are as many operands as there can be and no parenthesis is closed too early, all
tokens stand where they may. -/
theorem placed_of_surplus (h : reorderFrom waiting due tokens = some listing)
    (hsurplus : surplus tokens = due.toNat) (hcloses : ClosesComplete due tokens) :
    Placed (waiting.count "(") due tokens := by
  induction tokens generalizing waiting due listing with
  | nil =>
    rw [reorderFrom] at h
    split at h
    · cases h
    · next hnone =>
      obtain rfl : due = false := by
        cases due with
        | true => simp at hsurplus
        | false => rfl
      rw [List.count_eq_zero.mpr hnone]
      exact .done
  | cons token tokens ih =>
    have htail : ClosesComplete (dueAfter due token) tokens := by
      rintro before after rfl
      exact hcloses (token :: before) after rfl
    rw [surplus_cons] at hsurplus
    unfold dueAfter at htail
    obtain ⟨hkind, rfl, out, hread, rfl⟩ | ⟨hop, released, kept, out, rfl, hnone, hread, rfl⟩ |
      ⟨rfl, rfl, hread⟩ | ⟨rfl, released, kept, out, rfl, hnone, hread, rfl⟩ :=
      reorderFrom_cons_cases h
    · simp only [hkind] at htail
      rw [weight_operand hkind, Bool.toNat_true] at hsurplus
      have hrest : surplus tokens = false.toNat := by
        rw [Bool.toNat_false]
        omega
      exact .operand hkind (ih hread hrest htail)
    · have hcount : (released ++ kept).count "(" = (token :: kept).count "(" := by
        rw [List.count_append, List.count_eq_zero.mpr hnone, Nat.zero_add,
          List.count_cons_of_ne hop.ne_opening]
      rw [hcount]
      rcases hop with hkind | hkind
      · simp only [hkind, reduceCtorEq, decide_false, Bool.or_false] at hread htail
        rw [weight_unary hkind, Int.zero_add] at hsurplus
        exact .unary hkind (ih hread hsurplus htail)
      · simp only [hkind, decide_true, Bool.or_true] at hread htail
        rw [weight_binary hkind] at hsurplus
        obtain ⟨rfl, hrest⟩ := not_due_of_surplus hread hsurplus
        exact .binary hkind (ih hread hrest htail)
    · simp only [kind_opening] at htail
      rw [weight_opening, Int.zero_add] at hsurplus
      have hrest := ih hread hsurplus htail
      rw [List.count_cons_self] at hrest
      exact .opening hrest
    · simp only [kind_closing] at htail
      rw [weight_closing, Int.zero_add] at hsurplus
      obtain rfl : due = false := hcloses [] tokens rfl
      have hcount : (released ++ "(" :: kept).count "(" = kept.count "(" + 1 := by
        rw [List.count_append, List.count_eq_zero.mpr hnone, Nat.zero_add, List.count_cons_self]
      rw [hcount]
      exact .closing (ih hread hsurplus htail)

/-- The tokens of an accepted text have one operand more than operators of two operands. -/
theorem Accepted.reads {settings : Settings} {last : Binary64}
    (h : Accepted ⟨.inOrder, settings, last⟩ text) :
    ∃ listing, reorderTokens (InOrder.tokens text) = some listing ∧
      surplus (InOrder.tokens text) = 1 := by
  obtain ⟨translation, htranslation, x, hrun⟩ := h
  obtain ⟨listing, hlisting, rfl⟩ := Option.map_eq_some_iff.mp htranslation
  rw [words_reorder hlisting] at hrun
  obtain ⟨t, ⟨hfits, rfl⟩, -⟩ := PostOrder.run_eq_single_iff.mp hrun
  have hperm := reorderFrom_perm hlisting
  rw [List.filter_nil, List.nil_append] at hperm
  refine ⟨t.postOrder, hlisting, ?_⟩
  rw [← surplus_filter, ← surplus_perm hperm]
  exact surplus_postOrder rfl hfits

theorem accepted_of_denotes (h : Denotes .sum (InOrder.tokens text) t) (settings : Settings)
    (last : Binary64) : Accepted ⟨.inOrder, settings, last⟩ text := by
  let c : Calculator := ⟨.inOrder, settings, last⟩
  have hlisting := reorderTokens_of_denotes h
  obtain ⟨x, hx⟩ := Tree.exists_eval_eq_ok c.scope OperatorTables.standard_faultFree
    PostOrder.isAnswer t
  refine ⟨" ".intercalate t.postOrder, ?_, x, ?_⟩
  · show (reorderTokens (InOrder.tokens text)).map (" ".intercalate ·) = _
    rw [hlisting, Option.map_some]
  · rw [words_reorder hlisting]
    exact PostOrder.run_eq_single_iff.mpr ⟨t, ⟨h.fits _ rfl, rfl⟩, hx⟩

/-- The expressions are the accepted texts in which no parenthesis is closed where an operand is
due. In such a text what stands between a parenthesis and its partner is an expression as well. -/
theorem denotes_iff_accepted (settings : Settings) (last : Binary64) (text : String) :
    let c : Calculator := ⟨.inOrder, settings, last⟩
    let tokens := InOrder.tokens text
    ((∃ t, Denotes .sum tokens t) ↔ Accepted c text ∧ ClosesComplete true tokens) ∧
    (Accepted c text → ClosesComplete true tokens → ∀ before inner after,
      tokens = before ++ "(" :: (inner ++ ")" :: after) → Balanced 0 inner →
        ∃ t, Denotes .sum inner t) := by
  intro c tokens
  have hplaced (haccepted : Accepted c text) (hcloses : ClosesComplete true tokens) :
      Placed 0 true tokens := by
    obtain ⟨listing, hlisting, hsurplus⟩ := haccepted.reads
    exact placed_of_surplus hlisting hsurplus hcloses
  refine ⟨⟨?_, ?_⟩, ?_⟩
  · rintro ⟨t, ht⟩
    exact ⟨accepted_of_denotes ht settings last, (exists_denotes_iff.mp ⟨t, ht⟩).closesComplete⟩
  · rintro ⟨haccepted, hcloses⟩
    exact exists_denotes_iff.mpr (hplaced haccepted hcloses)
  · intro haccepted hcloses before inner after htokens hinner
    have h := hplaced haccepted hcloses
    rw [htokens] at h
    exact h.exists_denotes_inner hinner

theorem denotes_in_parentheses :
    let c : Calculator := ⟨.inOrder, {}, .nan⟩
    let text := "2 * (1 + ANS) !"
    Accepted c text ∧ ClosesComplete true (InOrder.tokens text) ∧
      Balanced 0 ["1", "+", "ANS"] ∧ ∃ t, Denotes .sum ["1", "+", "ANS"] t := by
  intro c text
  have htokens : InOrder.tokens text =
      ["2", "*"] ++ "(" :: (["1", "+", "ANS"] ++ ")" :: ["!"]) := by decide
  have hplaced : Placed 0 true (InOrder.tokens text) := by
    rw [htokens]
    exact .operand (by decide) (.binary (by decide) (.opening (.operand (by decide)
      (.binary (by decide) (.operand (by decide) (.closing (.unary (by decide) .done)))))))
  have hbalanced : Balanced 0 ["1", "+", "ANS"] :=
    .other (by decide) (.other (by decide) (.other (by decide) .done))
  obtain ⟨hiff, hinner⟩ := denotes_iff_accepted {} .nan text
  obtain ⟨haccepted, hcloses⟩ := hiff.mp (exists_denotes_iff.mpr hplaced)
  exact ⟨haccepted, hcloses, hbalanced, hinner haccepted hcloses _ _ _ htokens hbalanced⟩

/-- A sum whose right operand has come to stand behind the parenthesis that encloses it. What is in
the parentheses is no expression, nor is the whole, but it has a value. -/
theorem accepted_closed_early :
    let c : Calculator := ⟨.inOrder, {}, .nan⟩
    let text := "1 + (2 + ) 3"
    InOrder.tokens text = ["1", "+"] ++ "(" :: (["2", "+"] ++ ")" :: ["3"]) ∧
      Accepted c text ∧ (c.evaluate text).1 = .ok (.ofInt 6) ∧
      (¬ ∃ t, Denotes .sum (InOrder.tokens text) t) ∧ ¬ ∃ t, Denotes .sum ["2", "+"] t := by
  intro c text
  let sum : Tree := .binary "+" (.binary "+" (.operand "1") (.operand "2")) (.operand "3")
  have htokens : InOrder.tokens text = ["1", "+"] ++ "(" :: (["2", "+"] ++ ")" :: ["3"]) := by
    decide
  have hreorder : c.reorder text = some "1 2 + 3 +" := by decide
  have hlisting : PostOrder.IsListing c.scope sum (Text.words "1 2 + 3 +") :=
    ⟨⟨by decide, ⟨by decide, ⟨_, rfl⟩, _, rfl⟩, _, rfl⟩, by decide⟩
  obtain ⟨x, hx⟩ := Tree.exists_eval_eq_ok c.scope OperatorTables.standard_faultFree
    PostOrder.isAnswer sum
  refine ⟨htokens, ⟨_, hreorder, x, PostOrder.run_eq_single_iff.mpr ⟨sum, hlisting, hx⟩⟩,
    by decide +kernel, ?_, ?_⟩
  · rw [exists_denotes_iff, htokens]
    intro hplaced
    have hdue := hplaced.closesComplete ["1", "+", "(", "2", "+"] ["3"] rfl
    exact absurd hdue (by decide)
  · rw [exists_denotes_iff]
    intro hplaced
    have hread : Placed 0 true (["2", "+"] ++ []) := hplaced
    obtain ⟨depth, hend⟩ := hread.of_append
    have hdue : ["2", "+"].foldl dueAfter true = true := by decide
    rw [hdue] at hend
    cases hend

end NotationCalculator.InOrder
