import NotationCalculator.Proofs.Operations

/-!
# The last answer

The last answer is the value that an evaluation has returned most recently, and `nan` as long as
none has. A failed evaluation returns `nan` like any other value. An evaluation with a fault returns
nothing, so it leaves the last answer as it was, and so does everything that does not evaluate. What
is a fault elsewhere is a failed evaluation in pre-order notation, if calls were nested too deeply.
In the console a switch of notation forgets the last answer.
-/
namespace NotationCalculator

/-- The value that an operation with this answer has returned by evaluating. -/
def Operation.returned? : Operation → Except Error Answer → Option Binary64
  | .evaluate _, .ok (.value x) => some x
  | _, _ => none

/-- The values that the evaluations among the operations return, in their order. -/
def Calculator.returned (c : Calculator) : List Operation → List Binary64
  | [] => []
  | operation :: operations =>
    let (answer, c) := c.perform operation
    (operation.returned? answer).toList ++ c.returned operations

/-- What a line puts in place of the last answer, if it does. -/
def Console.replaced? (c : Calculator) (line : String) : Option Binary64 :=
  match Command.ofLine? line with
  | some (.switchTo _) => some .nan
  | some _ => none
  | none =>
    match c.evaluate line with
    | (.ok x, _) => some x
    | (.error _, _) => none

/-- All that the lines put in place of the last answer, in their order. -/
def Console.replaced (c : Calculator) : List String → List Binary64
  | [] => []
  | line :: lines => (replaced? c line).toList ++ replaced (handle c line).2 lines

theorem getLastD_toList_append {α : Type} (x? : Option α) (xs : List α) (d : α) :
    (x?.toList ++ xs).getLastD d = xs.getLastD (x?.getD d) := by
  cases x? with
  | none => rfl
  | some x => rw [Option.toList_some, List.singleton_append, List.getLastD_cons, Option.getD_some]

namespace Calculator

/-- A computation that has no value gives `nan`, and this is the last answer then. -/
theorem evaluate_of_undefined {c : Calculator} {text : String}
    (h : c.dialect.value c.scope text = .error .undefined) :
    c.evaluate text = (.ok .nan, { c with lastAnswer := .nan }) :=
  evaluate_of_settle (congrArg Failure.settle h)

theorem lastAnswer_perform_of_ne (c : Calculator) {operation : Operation}
    (h : ∀ text, operation ≠ .evaluate text) :
    (c.perform operation).2.lastAnswer = c.lastAnswer := by
  refine perform_of_effect (p := (·.lastAnswer = c.lastAnswer)) rfl ?_
  intro after heffect
  cases heffect with
  | evaluate => exact absurd rfl (h _)
  | _ => rfl

theorem lastAnswer_perform (c : Calculator) (operation : Operation) :
    (c.perform operation).2.lastAnswer =
      (operation.returned? (c.perform operation).1).getD c.lastAnswer := by
  by_cases h : ∃ text, operation = .evaluate text
  · obtain ⟨text, rfl⟩ := h
    rcases c.evaluate_cases text with ⟨x, hx⟩ | ⟨cause, hcause⟩
    · simp only [perform, hx]
      rfl
    · simp only [perform, hcause]
      rfl
  · have hother : ∀ text, operation ≠ .evaluate text := fun text heq => h ⟨text, heq⟩
    have hnone : operation.returned? (c.perform operation).1 = none := by
      cases operation with
      | evaluate text => exact absurd rfl (hother text)
      | _ => rfl
    rw [c.lastAnswer_perform_of_ne hother, hnone, Option.getD_none]

theorem lastAnswer_after (c : Calculator) (operations : List Operation) :
    (c.after operations).lastAnswer = (c.returned operations).getLastD c.lastAnswer := by
  induction operations generalizing c with
  | nil => rfl
  | cons operation operations ih =>
    rw [after_cons, ih, returned, getLastD_toList_append, lastAnswer_perform]

end Calculator

namespace Console

theorem lastAnswer_obey_of_ne (c : Calculator) {command : Command}
    (h : ∀ new, command ≠ .switchTo new) : (obey c command).2.lastAnswer = c.lastAnswer := by
  cases command with
  | switchTo new => exact absurd rfl (h new)
  | help | settings | angleUnit unit => rfl
  | precision digits =>
    rw [obey]
    split <;> rfl

theorem lastAnswer_handle (c : Calculator) (line : String) :
    (handle c line).2.lastAnswer = (replaced? c line).getD c.lastAnswer := by
  cases hcommand : Command.ofLine? line with
  | some command =>
    rw [handle_of_command hcommand]
    by_cases h : ∃ new, command = .switchTo new
    · obtain ⟨new, rfl⟩ := h
      simp only [replaced?, hcommand]
      rfl
    · have hother : ∀ new, command ≠ .switchTo new := fun new heq => h ⟨new, heq⟩
      have hnone : replaced? c line = none := by
        cases command with
        | switchTo new => exact absurd rfl (hother new)
        | _ => simp only [replaced?, hcommand]
      rw [lastAnswer_obey_of_ne c hother, hnone, Option.getD_none]
  | none =>
    rw [handle_of_expression hcommand]
    obtain ⟨x, heval, hx⟩ | ⟨cause, heval, hcause⟩ := answer_cases c line
    · simp only [hx, replaced?, hcommand, heval]
      rfl
    · simp only [hcause, replaced?, hcommand, heval]
      rfl

theorem lastAnswer_after (c : Calculator) (lines : List String) :
    (after c lines).lastAnswer = (replaced c lines).getLastD c.lastAnswer := by
  induction lines generalizing c with
  | nil => rfl
  | cons line lines ih => rw [after_cons, ih, replaced, getLastD_toList_append, lastAnswer_handle]

end Console

end NotationCalculator
