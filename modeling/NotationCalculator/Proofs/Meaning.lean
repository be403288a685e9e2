import NotationCalculator.Proofs.Descent
import NotationCalculator.Proofs.InOrderReading

/-!
# What reading depends on

A scope matters to a text only by what it makes of the tokens in it: their roles and, for operators,
their values. Two scopes that make the same of them give the text the same value, or the same fault,
in every notation.
-/
namespace NotationCalculator

/-- Both scopes give the token the same role, and the operators of this name do the same. -/
structure Scope.AgreeAt (scope scope' : Scope) (token : String) : Prop where
  role : ∀ isAnswer, scope.role isAnswer token = scope'.role isAnswer token
  unary : ∀ x, scope.applyUnary token x = scope'.applyUnary token x
  binary : ∀ x y, scope.applyBinary token x y = scope'.applyBinary token x y

/-- The tokens that a calculator of this kind finds in a text. -/
def Dialect.tokens (dialect : Dialect) (text : String) : List String :=
  match dialect with
  | .preOrder _ | .postOrder _ => Text.words text
  | .inOrder => InOrder.tokens text

/-- Whether a token names the last answer in texts of this kind. -/
def Dialect.isAnswer : Dialect → String → Bool
  | .preOrder _ => PreOrder.isAnswer
  | .inOrder | .postOrder _ => PostOrder.isAnswer

variable {scope scope' : Scope} {tokens : List String}

theorem PostOrder.step_congr {token : String} (h : scope.AgreeAt scope' token)
    (stack : List Binary64) : step scope stack token = step scope' stack token := by
  simp only [step_eq_of_role, h.role, h.unary, h.binary]

theorem PostOrder.run_congr (h : ∀ token ∈ tokens, scope.AgreeAt scope' token)
    (stack : List Binary64) : run scope stack tokens = run scope' stack tokens := by
  induction tokens generalizing stack with
  | nil => rfl
  | cons token tokens ih =>
    rw [List.forall_mem_cons] at h
    rw [run, run, List.foldlM_cons, List.foldlM_cons, step_congr h.1]
    exact congrArg (step scope' stack token >>= ·) (funext (ih h.2))

theorem PostOrder.value_congr (h : ∀ token ∈ tokens, scope.AgreeAt scope' token) :
    value scope tokens = value scope' tokens := by
  rw [value, value, run_congr h]

theorem PreOrder.readValue_congr (h : ∀ token ∈ tokens, scope.AgreeAt scope' token)
    (limit : ℕ) : readValue scope limit tokens = readValue scope' limit tokens := by
  induction limit generalizing tokens with
  | zero => rfl
  | succ limit ih =>
    cases tokens with
    | nil => rfl
    | cons token tokens =>
      rw [List.forall_mem_cons] at h
      obtain ⟨htoken, htokens⟩ := h
      rw [readValue, readValue, htoken.role]
      split
      · rfl
      · simp only [ih htokens, htoken.unary]
      · rw [ih htokens]
        cases hx : readValue scope' limit tokens with
        | error e => rfl
        | ok result =>
          -- The right operand is read from what the left one has not taken up.
          obtain ⟨x, rest⟩ := result
          obtain ⟨t, -, -, -, rfl⟩ := readValue_eq_ok_iff.mp hx
          have hrest : ∀ other ∈ rest, scope.AgreeAt scope' other := fun other hother =>
            htokens other (List.mem_append_right t.preOrder hother)
          simp only [bind, Except.bind, ih hrest, htoken.binary]
      · rfl

theorem PreOrder.value_congr (h : ∀ token ∈ tokens, scope.AgreeAt scope' token) :
    value scope tokens = value scope' tokens := by
  rw [value, value, readAll, readAll, readValue_congr h]

theorem InOrder.value_congr {text : String}
    (h : ∀ token ∈ InOrder.tokens text, scope.AgreeAt scope' token) :
    value scope text = value scope' text := by
  rw [value_eq, value_eq]
  cases hlisting : reorderTokens (InOrder.tokens text) with
  | none => rfl
  | some listing =>
    exact PostOrder.value_congr fun token hmem => h token (mem_tokens_of_mem_listing hlisting hmem)

theorem Dialect.value_congr {dialect : Dialect} {text : String}
    (h : ∀ token ∈ dialect.tokens text, scope.AgreeAt scope' token) :
    dialect.value scope text = dialect.value scope' text := by
  cases dialect with
  | preOrder tables => exact PreOrder.value_congr h
  | inOrder => exact InOrder.value_congr h
  | postOrder tables => exact PostOrder.value_congr h

end NotationCalculator
