import NotationCalculator.Proofs.Placement

/-!
# Which texts are brought into post-order

There is a post-order text exactly when all tokens are known, the parentheses have partners, and
behind an operand an operator of two operands comes before anything that stands where an operand is
due. How strongly operators bind, which of them wait and where operators of one operand stand plays
no part: while the tokens are read it is enough to keep in mind how many parentheses are open and
whether an operand is due.
-/
namespace NotationCalculator.InOrder

/-- Whether tokens of these kinds can be read with so many parentheses open and an operand due or
not. -/
def passes (depth : ℕ) (due : Bool) : List Kind → Bool
  | [] => depth = 0
  | .operand :: kinds => due && passes depth false kinds
  | .unary :: kinds => passes depth due kinds
  | .binary :: kinds => passes depth true kinds
  | .opening :: kinds => due && passes (depth + 1) true kinds
  | .closing :: kinds => depth ≠ 0 && passes (depth - 1) due kinds
  | .unknown :: _ => false

/-- A numeral or the name of the last answer, in letters of either case. -/
def IsOperand (token : String) : Prop := (Numeral.parse? token).isSome ∨ Text.lower token = "ans"

instance : DecidablePred IsOperand := fun token =>
  inferInstanceAs (Decidable ((Numeral.parse? token).isSome ∨ Text.lower token = "ans"))

/-- The tokens are known, every parenthesis has its partner, and between an operand and the next
one, or the next opening parenthesis, there is an operator of two operands. -/
structure Reorderable (tokens : List String) : Prop where
  known : ∀ token ∈ tokens, IsOperand token ∨
    OperatorTables.standard.unary.contains token = true ∨
    OperatorTables.standard.binary.contains token = true ∨ token = "(" ∨ token = ")"
  opened : ∀ before, before <+: tokens → before.count ")" ≤ before.count "("
  closed : tokens.count ")" = tokens.count "("
  apart : ∀ before operand between next after,
    tokens = before ++ operand :: (between ++ next :: after) →
    IsOperand operand → IsOperand next ∨ next = "(" →
    ∃ operator ∈ between, OperatorTables.standard.binary.contains operator = true

/-- Within a text that has so many parentheses open: none is closed that is not open, and all are
closed in the end. -/
structure Closes (depth : ℕ) (tokens : List String) : Prop where
  opened : ∀ before, before <+: tokens → before.count ")" ≤ depth + before.count "("
  closed : tokens.count ")" = depth + tokens.count "("

/-- An operator of two operands comes before what stands where an operand is due. -/
def Defers (tokens : List String) : Prop :=
  ∀ between next after, tokens = between ++ next :: after →
    kind next = .operand ∨ kind next = .opening → ∃ operator ∈ between, kind operator = .binary

/-- This is so behind every operand. -/
def Apart (tokens : List String) : Prop :=
  ∀ before operand after, tokens = before ++ operand :: after → kind operand = .operand →
    Defers after

variable {waiting tokens : List String} {due : Bool} {depth : ℕ} {token text : String}

theorem isOperand_iff :
    IsOperand token ↔ ((Numeral.parse? token).isSome || PostOrder.isAnswer token) = true := by
  rw [IsOperand, Bool.or_eq_true, PostOrder.isAnswer, decide_eq_true_eq]

theorem kind_eq_operand_iff : kind token = .operand ↔ IsOperand token := by
  rw [isOperand_iff, kind]
  split_ifs with hoperand <;> simp [hoperand]

theorem kind_eq_binary_iff :
    kind token = .binary ↔ OperatorTables.standard.binary.contains token = true := by
  have hall : ∀ name ∈ ["+", "-", "*", "/", "%", "^"], kind name = .binary ∧
      OperatorTables.standard.binary.contains name = true := by decide
  exact ⟨fun h => (hall token (mem_of_kind_binary h)).2,
    fun h => (hall token (mem_of_standard_binary h)).1⟩

theorem kind_eq_unary_iff :
    kind token = .unary ↔ OperatorTables.standard.unary.contains token = true := by
  refine ⟨fun h => ?_, kind_of_standard_unary⟩
  unfold kind at h
  split_ifs at h
  assumption

theorem kind_ne_unknown_iff : kind token ≠ .unknown ↔ IsOperand token ∨
    OperatorTables.standard.unary.contains token = true ∨
    OperatorTables.standard.binary.contains token = true ∨ token = "(" ∨ token = ")" := by
  rw [isOperand_iff, kind]
  split_ifs with hoperand hunary hbinary hopening hclosing <;> simp [*]

/-- What goes on waiting when an operator comes has all the parentheses that waited. -/
theorem isSome_reorderFrom_operator (hop : IsOperator token) (waiting : List String) (due : Bool)
    (tokens : List String) : ∃ kept, kept.count "(" = waiting.count "(" ∧
      (reorderFrom waiting due (token :: tokens)).isSome =
        (reorderFrom kept (due || kind token = .binary) tokens).isSome := by
  obtain ⟨released, kept, hspan⟩ : ∃ released kept,
      waiting.span (fun other => !waits token other) = (released, kept) := ⟨_, _, rfl⟩
  obtain ⟨rfl, hnone⟩ := append_of_span (by simp) hspan
  refine ⟨token :: kept, ?_, ?_⟩
  · rw [List.count_cons_of_ne hop.ne_opening, List.count_append, List.count_eq_zero.mpr hnone,
      Nat.zero_add]
  · rw [reorderFrom_operator hop hspan, Option.isSome_map]

/-- A closing parenthesis needs an open one, and takes the last of them away. -/
theorem isSome_reorderFrom_closing (waiting : List String) (due : Bool) (tokens : List String) :
    ("(" ∉ waiting ∧ reorderFrom waiting due (")" :: tokens) = none) ∨
    ∃ kept, waiting.count "(" = kept.count "(" + 1 ∧
      (reorderFrom waiting due (")" :: tokens)).isSome = (reorderFrom kept due tokens).isSome := by
  by_cases hmem : "(" ∈ waiting
  · obtain ⟨released, kept, rfl, hnone⟩ := List.eq_append_cons_of_mem hmem
    have hreleased : ∀ other ∈ released, other ≠ "(" := fun other hother heq =>
      hnone (heq ▸ hother)
    refine .inr ⟨kept, ?_, ?_⟩
    · rw [List.count_append, List.count_eq_zero.mpr hnone, Nat.zero_add, List.count_cons_self]
    · rw [reorderFrom_closing hreleased, Option.isSome_map]
  · exact .inl ⟨hmem, reorderFrom_closing_eq_none hmem due tokens⟩

/-- The tokens that wait matter only for the parentheses among them. -/
theorem isSome_reorderFrom (waiting : List String) (due : Bool) (tokens : List String) :
    (reorderFrom waiting due tokens).isSome = passes (waiting.count "(") due (tokens.map kind) := by
  induction tokens generalizing waiting due with
  | nil =>
    rw [reorderFrom, List.map_nil, passes]
    split_ifs with hmem
    · simp [List.count_eq_zero, hmem]
    · simp [List.count_eq_zero, hmem]
  | cons token tokens ih =>
    cases hkind : kind token with
    | operand =>
      rw [List.map_cons, hkind, passes]
      cases due with
      | true => rw [reorderFrom_operand hkind, Option.isSome_map, ih, Bool.true_and]
      | false => rw [reorderFrom_operand_not_due hkind, Option.isSome_none, Bool.false_and]
    | unary =>
      obtain ⟨kept, hcount, hkept⟩ := isSome_reorderFrom_operator (.inl hkind) waiting due tokens
      rw [hkept, ih, hcount, List.map_cons, hkind, passes]
      simp
    | binary =>
      obtain ⟨kept, hcount, hkept⟩ := isSome_reorderFrom_operator (.inr hkind) waiting due tokens
      rw [hkept, ih, hcount, List.map_cons, hkind, passes]
      simp
    | opening =>
      obtain rfl := eq_opening_of_kind hkind
      rw [List.map_cons, hkind, passes]
      cases due with
      | true => rw [reorderFrom_opening, ih, List.count_cons_self, Bool.true_and]
      | false => rw [reorderFrom_opening_not_due, Option.isSome_none, Bool.false_and]
    | closing =>
      obtain rfl := eq_closing_of_kind hkind
      rw [List.map_cons, hkind, passes]
      obtain ⟨hmem, hnone⟩ | ⟨kept, hcount, hkept⟩ :=
        isSome_reorderFrom_closing waiting due tokens
      · simp [hnone, List.count_eq_zero.mpr hmem]
      · simp [hkept, ih, hcount]
    | unknown =>
      rw [reorderFrom, List.map_cons, hkind]
      rfl

/-- Operators of one operand may stand anywhere. -/
theorem passes_filter (depth : ℕ) (due : Bool) (kinds : List Kind) :
    passes depth due (kinds.filter (· ≠ .unary)) = passes depth due kinds := by
  induction kinds generalizing depth due with
  | nil => rfl
  | cons kind kinds ih =>
    cases kind with
    | unary => rw [List.filter_cons_of_neg (by simp), passes, ih]
    | operand | binary | opening | closing =>
      rw [List.filter_cons_of_pos (by simp), passes, passes, ih]
    | unknown =>
      rw [List.filter_cons_of_pos (by simp)]
      rfl

theorem forall_prefix_cons {p : List String → Prop} :
    (∀ before, before <+: token :: tokens → p before) ↔
      p [] ∧ ∀ before, before <+: tokens → p (token :: before) := by
  constructor
  · intro h
    exact ⟨h [] List.nil_prefix, fun before hbefore =>
      h (token :: before) (List.cons_prefix_cons.mpr ⟨rfl, hbefore⟩)⟩
  · rintro ⟨hnil, hcons⟩ before hbefore
    obtain rfl | ⟨rest, rfl, hrest⟩ := List.prefix_cons_iff.mp hbefore
    · exact hnil
    · exact hcons rest hrest

theorem closes_nil_iff : Closes depth [] ↔ depth = 0 := by
  constructor
  · intro h
    simpa using h.closed.symm
  · rintro rfl
    exact ⟨by simp, by simp⟩

theorem closes_cons_iff : Closes depth (token :: tokens) ↔
    (∀ before, before <+: tokens →
      (token :: before).count ")" ≤ depth + (token :: before).count "(") ∧
    (token :: tokens).count ")" = depth + (token :: tokens).count "(" := by
  constructor
  · intro h
    exact ⟨(forall_prefix_cons.mp h.opened).2, h.closed⟩
  · rintro ⟨hopened, hclosed⟩
    exact ⟨forall_prefix_cons.mpr ⟨by simp, hopened⟩, hclosed⟩

theorem closes_opening_iff : Closes depth ("(" :: tokens) ↔ Closes (depth + 1) tokens := by
  have hne : "(" ≠ ")" := by decide
  simp only [closes_cons_iff, List.count_cons_self, List.count_cons_of_ne hne]
  constructor
  · rintro ⟨hopened, hclosed⟩
    exact ⟨fun before hbefore => by have := hopened before hbefore; omega, by omega⟩
  · rintro ⟨hopened, hclosed⟩
    exact ⟨fun before hbefore => by have := hopened before hbefore; omega, by omega⟩

theorem closes_closing_iff :
    Closes depth (")" :: tokens) ↔ depth ≠ 0 ∧ Closes (depth - 1) tokens := by
  have hne : ")" ≠ "(" := by decide
  simp only [closes_cons_iff, List.count_cons_self, List.count_cons_of_ne hne]
  constructor
  · rintro ⟨hopened, hclosed⟩
    have hdepth := hopened [] List.nil_prefix
    rw [List.count_nil, List.count_nil] at hdepth
    exact ⟨by omega, fun before hbefore => by have := hopened before hbefore; omega, by omega⟩
  · rintro ⟨hdepth, hopened, hclosed⟩
    exact ⟨fun before hbefore => by have := hopened before hbefore; omega, by omega⟩

theorem closes_other_iff (h : isParenthesis token = false) :
    Closes depth (token :: tokens) ↔ Closes depth tokens := by
  simp only [isParenthesis, Bool.or_eq_false_iff, decide_eq_false_iff_not] at h
  simp only [closes_cons_iff, List.count_cons_of_ne h.1, List.count_cons_of_ne h.2]
  exact ⟨fun hcloses => ⟨hcloses.1, hcloses.2⟩, fun hcloses => ⟨hcloses.opened, hcloses.closed⟩⟩

theorem defers_nil : Defers [] := by
  intro between next after h
  simp at h

theorem defers_cons_iff : Defers (token :: tokens) ↔
    kind token ≠ .operand ∧ kind token ≠ .opening ∧ (kind token = .binary ∨ Defers tokens) := by
  constructor
  · intro h
    have hfirst : ¬ (kind token = .operand ∨ kind token = .opening) := by
      intro hnext
      obtain ⟨operator, hmem, -⟩ := h [] token tokens rfl hnext
      exact absurd hmem List.not_mem_nil
    rw [not_or] at hfirst
    refine ⟨hfirst.1, hfirst.2, or_iff_not_imp_left.mpr fun hbinary => ?_⟩
    rintro between next after rfl hnext
    obtain ⟨operator, hmem, hkind⟩ := h (token :: between) next after rfl hnext
    rcases List.mem_cons.mp hmem with rfl | hmem
    · exact absurd hkind hbinary
    · exact ⟨operator, hmem, hkind⟩
  · rintro ⟨hoperand, hopening, hrest⟩ between next after htokens hnext
    cases between with
    | nil =>
      obtain ⟨rfl, -⟩ := List.cons.inj htokens
      exact absurd hnext (not_or.mpr ⟨hoperand, hopening⟩)
    | cons other between =>
      obtain ⟨rfl, rfl⟩ := List.cons.inj htokens
      rcases hrest with hbinary | hdefers
      · exact ⟨token, List.mem_cons_self, hbinary⟩
      · obtain ⟨operator, hmem, hkind⟩ := hdefers between next after rfl hnext
        exact ⟨operator, List.mem_cons_of_mem token hmem, hkind⟩

theorem apart_nil : Apart [] := by
  intro before operand after h
  simp at h

theorem apart_cons_iff :
    Apart (token :: tokens) ↔ (kind token = .operand → Defers tokens) ∧ Apart tokens := by
  constructor
  · intro h
    refine ⟨h [] token tokens rfl, ?_⟩
    rintro before operand after rfl
    exact h (token :: before) operand after rfl
  · rintro ⟨hfirst, hrest⟩ before operand after htokens
    cases before with
    | nil =>
      obtain ⟨rfl, rfl⟩ := List.cons.inj htokens
      exact hfirst
    | cons other before =>
      obtain ⟨rfl, rfl⟩ := List.cons.inj htokens
      exact hrest before operand after rfl

theorem passes_iff : passes depth due (tokens.map kind) = true ↔
    (∀ token ∈ tokens, kind token ≠ .unknown) ∧ Closes depth tokens ∧ Apart tokens ∧
      (due = false → Defers tokens) := by
  induction tokens generalizing depth due with
  | nil => simp [passes, closes_nil_iff, defers_nil, apart_nil]
  | cons token tokens ih =>
    rw [List.map_cons, List.forall_mem_cons, apart_cons_iff, defers_cons_iff]
    -- The first token asks something of itself and of the state; all else is asked of the rest.
    cases hkind : kind token with
    | operand =>
      rw [passes, Bool.and_eq_true, ih, closes_other_iff (isParenthesis_eq_false (.inl hkind))]
      grind
    | unary =>
      rw [passes, ih, closes_other_iff (isParenthesis_eq_false (.inr (.inl hkind)))]
      grind
    | binary =>
      rw [passes, ih, closes_other_iff (isParenthesis_eq_false (.inr (.inr hkind)))]
      grind
    | opening =>
      obtain rfl := eq_opening_of_kind hkind
      rw [passes, Bool.and_eq_true, ih, closes_opening_iff]
      grind
    | closing =>
      obtain rfl := eq_closing_of_kind hkind
      rw [passes, Bool.and_eq_true, ih, closes_closing_iff]
      grind
    | unknown => simp [passes]

theorem apart_iff : Apart tokens ↔ ∀ before operand between next after,
    tokens = before ++ operand :: (between ++ next :: after) →
    IsOperand operand → IsOperand next ∨ next = "(" →
    ∃ operator ∈ between, OperatorTables.standard.binary.contains operator = true := by
  have hopening {other : String} : kind other = .opening ↔ other = "(" :=
    ⟨eq_opening_of_kind, fun h => h ▸ kind_opening⟩
  simp only [Apart, Defers, kind_eq_operand_iff, hopening, kind_eq_binary_iff]
  constructor
  · intro h before operand between next after htokens hoperand hnext
    exact h before operand _ htokens hoperand between next after rfl hnext
  · rintro h before operand _ htokens hoperand between next after rfl hnext
    exact h before operand between next after htokens hoperand hnext

theorem reorderable_iff : Reorderable tokens ↔
    (∀ token ∈ tokens, kind token ≠ .unknown) ∧ Closes 0 tokens ∧ Apart tokens := by
  simp only [kind_ne_unknown_iff, apart_iff]
  constructor
  · rintro ⟨hknown, hopened, hclosed, hapart⟩
    exact ⟨hknown, ⟨by simpa only [Nat.zero_add] using hopened, by rw [hclosed, Nat.zero_add]⟩,
      hapart⟩
  · rintro ⟨hknown, ⟨hopened, hclosed⟩, hapart⟩
    exact ⟨hknown, by simpa only [Nat.zero_add] using hopened, by rw [hclosed, Nat.zero_add],
      hapart⟩

/-- There is a post-order text exactly when the tokens are known, every parenthesis has its partner
and operators of two operands keep the operands apart. The kinds of the tokens other than operators
of one operand decide this, with no more in mind than the open parentheses and whether an operand is
due. -/
theorem exists_reorder_iff (settings : Settings) (last : Binary64) (text : String) :
    let c : Calculator := ⟨.inOrder, settings, last⟩
    let tokens := InOrder.tokens text
    ((∃ translation, c.reorder text = some translation) ↔ Reorderable tokens) ∧
    (c.reorder text).isSome = passes 0 true ((tokens.map kind).filter (· ≠ .unary)) := by
  intro c tokens
  have hpasses : (c.reorder text).isSome = passes 0 true (tokens.map kind) := by
    show ((reorderTokens tokens).map (" ".intercalate ·)).isSome = _
    rw [Option.isSome_map, reorderTokens, isSome_reorderFrom, List.count_nil]
  refine ⟨?_, by rw [hpasses, passes_filter]⟩
  rw [← Option.isSome_iff_exists, hpasses, passes_iff, reorderable_iff]
  simp only [Bool.true_eq_false, false_implies, and_true]

/-- Nothing is asked of what stands before a closing parenthesis. -/
example : reorder "1 + (2 + ) 3" = some "1 2 + 3 +" ∧ reorder "(1) 2" = none := by decide

end NotationCalculator.InOrder
