import NotationCalculator.Proofs.Acceptance
import NotationCalculator.Proofs.Reorderable

/-!
# Operands and operators that take turns

In an accepted text parentheses and operators of one operand may stand in many places, but what is
left without them always has the same form: an operand, and any number of times an operator of two
operands and another operand. An operand is taken only where one is due, so there are never two of
them in a row. That there are never two operators in a row, nor one at either end, comes from the
number of operands that the post-order text must have.

Where there are no parentheses this form is all that is asked of a text of known tokens.
-/
namespace NotationCalculator.InOrder

/-- An operand, and any number of times an operator of two operands and another operand. -/
inductive Alternating : List String → Prop
  | operand {token : String} : IsOperand token → Alternating [token]
  | binary {token operator : String} {tokens : List String} :
      IsOperand token → OperatorTables.standard.binary.contains operator = true →
      Alternating tokens → Alternating (token :: operator :: tokens)

/-- The tokens without parentheses and operators of one operand. -/
def backbone (tokens : List String) : List String :=
  tokens.filter fun token =>
    !isParenthesis token && !OperatorTables.standard.unary.contains token

/-- What alternating tokens go on with where an operand is due, and where an operator is. -/
def Alternates : Bool → List String → Prop
  | true, tokens => Alternating tokens
  | false, [] => True
  | false, operator :: tokens =>
    OperatorTables.standard.binary.contains operator = true ∧ Alternating tokens

variable {waiting tokens listing : List String} {due : Bool} {operator token text : String}

theorem backbone_cons_of_kept (h : kind token = .operand ∨ kind token = .binary)
    (tokens : List String) : backbone (token :: tokens) = token :: backbone tokens := by
  have hparen : isParenthesis token = false := isParenthesis_eq_false (h.imp_right .inr)
  have hunary : OperatorTables.standard.unary.contains token = false := by
    rw [← Bool.not_eq_true, ← kind_eq_unary_iff]
    rcases h with hkind | hkind <;> simp [hkind]
  rw [backbone, List.filter_cons_of_pos (by simp [hparen, hunary])]
  rfl

theorem backbone_cons_of_unary (h : kind token = .unary) (tokens : List String) :
    backbone (token :: tokens) = backbone tokens := by
  rw [backbone, List.filter_cons_of_neg (by simp [kind_eq_unary_iff.mp h])]
  rfl

theorem backbone_cons_of_parenthesis (h : isParenthesis token = true) (tokens : List String) :
    backbone (token :: tokens) = backbone tokens := by
  rw [backbone, List.filter_cons_of_neg (by simp [h])]
  rfl

theorem Alternates.operand (h : kind token = .operand) (hrest : Alternates false tokens) :
    Alternates true (token :: tokens) := by
  have hoperand := kind_eq_operand_iff.mp h
  cases tokens with
  | nil => exact Alternating.operand hoperand
  | cons operator tokens => exact Alternating.binary hoperand hrest.1 hrest.2

theorem Alternates.operand_inv (h : Alternates due (token :: tokens))
    (hkind : kind token = .operand) : due = true ∧ Alternates false tokens := by
  cases due with
  | false => simp [kind_eq_binary_iff.mpr h.1] at hkind
  | true =>
    refine ⟨rfl, ?_⟩
    cases h with
    | operand _ => trivial
    | binary _ hbinary hrest => exact ⟨hbinary, hrest⟩

theorem Alternates.binary_inv (h : Alternates due (token :: tokens))
    (hkind : kind token = .binary) : due = false ∧ Alternates true tokens := by
  cases due with
  | false => exact ⟨rfl, h.2⟩
  | true => cases h with
    | operand hoperand | binary hoperand _ _ => simp [kind_eq_operand_iff.mpr hoperand] at hkind

/-- When there are as many operands as there can be, they and the operators of two operands take
turns. -/
theorem alternates_of_surplus (h : reorderFrom waiting due tokens = some listing)
    (hsurplus : surplus tokens = due.toNat) : Alternates due (backbone tokens) := by
  induction tokens generalizing waiting due listing with
  | nil =>
    cases due with
    | true => simp at hsurplus
    | false => trivial
  | cons token tokens ih =>
    rw [surplus_cons] at hsurplus
    obtain ⟨hkind, rfl, out, hread, rfl⟩ |
      ⟨hkind | hkind, released, kept, out, rfl, -, hread, rfl⟩ | ⟨rfl, rfl, hread⟩ |
      ⟨rfl, released, kept, out, rfl, -, hread, rfl⟩ := reorderFrom_cons_cases h
    · rw [weight_operand hkind, Bool.toNat_true] at hsurplus
      have hrest : surplus tokens = false.toNat := by
        rw [Bool.toNat_false]
        omega
      rw [backbone_cons_of_kept (.inl hkind)]
      exact .operand hkind (ih hread hrest)
    · simp only [hkind, reduceCtorEq, decide_false, Bool.or_false] at hread
      rw [weight_unary hkind, Int.zero_add] at hsurplus
      rw [backbone_cons_of_unary hkind]
      exact ih hread hsurplus
    · simp only [hkind, decide_true, Bool.or_true] at hread
      rw [weight_binary hkind] at hsurplus
      obtain ⟨rfl, hrest⟩ := not_due_of_surplus hread hsurplus
      rw [backbone_cons_of_kept (.inr hkind)]
      exact ⟨kind_eq_binary_iff.mp hkind, ih hread hrest⟩
    · rw [weight_opening, Int.zero_add] at hsurplus
      rw [backbone_cons_of_parenthesis (by decide)]
      exact ih hread hsurplus
    · rw [weight_closing, Int.zero_add] at hsurplus
      rw [backbone_cons_of_parenthesis (by decide)]
      exact ih hread hsurplus

/-- Without parentheses, tokens that take turns stand where they may, and operators of one operand
may stand anywhere between them. -/
theorem placed_of_alternates (hknown : ∀ token ∈ tokens, IsOperand token ∨
      OperatorTables.standard.unary.contains token = true ∨
      OperatorTables.standard.binary.contains token = true)
    (h : Alternates due (backbone tokens)) : Placed 0 due tokens := by
  induction tokens generalizing due with
  | nil =>
    cases due with
    | false => exact .done
    | true => cases h
  | cons token tokens ih =>
    rw [List.forall_mem_cons] at hknown
    obtain ⟨hoperand | hunary | hbinary, hrest⟩ := hknown
    · have hkind := kind_eq_operand_iff.mpr hoperand
      rw [backbone_cons_of_kept (.inl hkind)] at h
      obtain ⟨rfl, hnext⟩ := h.operand_inv hkind
      exact .operand hkind (ih hrest hnext)
    · have hkind := kind_eq_unary_iff.mpr hunary
      rw [backbone_cons_of_unary hkind] at h
      exact .unary hkind (ih hrest h)
    · have hkind := kind_eq_binary_iff.mpr hbinary
      rw [backbone_cons_of_kept (.inr hkind)] at h
      obtain ⟨rfl, hnext⟩ := h.binary_inv hkind
      exact .binary hkind (ih hrest hnext)

/-- Without parentheses and operators of one operand, an accepted text is an operand and any number
of times an operator of two operands and another operand. Where there are no parentheses, every text
of known tokens that has this form is accepted, wherever operators of one operand stand in it. -/
theorem alternating_of_accepted (settings : Settings) (last : Binary64) (text : String) :
    let c : Calculator := ⟨.inOrder, settings, last⟩
    let tokens := InOrder.tokens text
    (Accepted c text → Alternating (backbone tokens)) ∧
    ((∀ token ∈ tokens, IsOperand token ∨
        OperatorTables.standard.unary.contains token = true ∨
        OperatorTables.standard.binary.contains token = true) →
      Alternating (backbone tokens) → Accepted c text) := by
  intro c tokens
  constructor
  · intro haccepted
    obtain ⟨listing, hlisting, hsurplus⟩ := haccepted.reads
    have hturns : Alternates true (backbone tokens) := alternates_of_surplus hlisting hsurplus
    exact hturns
  · intro hknown hform
    have hturns : Alternates true (backbone tokens) := hform
    obtain ⟨t, ht⟩ := exists_denotes_iff.mpr (placed_of_alternates hknown hturns)
    exact accepted_of_denotes ht settings last

/-- A text with parentheses, and one with operators of one operand on both sides of its operands. -/
theorem alternating_of_nested_and_of_flat :
    let c : Calculator := ⟨.inOrder, {}, .nan⟩
    let nested := "2 * (1 + ~ ANS) !"
    let flat := "~ 1 ! ^ abs ANS"
    (Accepted c nested ∧ Alternating (backbone (InOrder.tokens nested))) ∧
    ((∀ token ∈ InOrder.tokens flat, IsOperand token ∨
        OperatorTables.standard.unary.contains token = true ∨
        OperatorTables.standard.binary.contains token = true) ∧
      Alternating (backbone (InOrder.tokens flat)) ∧ Accepted c flat) := by
  intro c nested flat
  have hplaced : Placed 0 true (InOrder.tokens nested) := by
    have htokens : InOrder.tokens nested = ["2", "*", "(", "1", "+", "~", "ANS", ")", "!"] := by
      decide
    rw [htokens]
    exact .operand (by decide) (.binary (by decide) (.opening (.operand (by decide)
      (.binary (by decide) (.unary (by decide) (.operand (by decide)
        (.closing (.unary (by decide) .done))))))))
  obtain ⟨t, ht⟩ := exists_denotes_iff.mpr hplaced
  have haccepted : Accepted c nested := accepted_of_denotes ht {} .nan
  have hknown : ∀ token ∈ InOrder.tokens flat, IsOperand token ∨
      OperatorTables.standard.unary.contains token = true ∨
      OperatorTables.standard.binary.contains token = true := by decide
  have hbackbone : backbone (InOrder.tokens flat) = ["1", "^", "ANS"] := by decide
  have hform : Alternating (backbone (InOrder.tokens flat)) := by
    rw [hbackbone]
    exact .binary (by decide) (by decide) (.operand (by decide))
  exact ⟨⟨haccepted, (alternating_of_accepted {} .nan nested).1 haccepted⟩, hknown, hform,
    (alternating_of_accepted {} .nan flat).2 hknown hform⟩

end NotationCalculator.InOrder
