import NotationCalculator.Console
import NotationCalculator.Proofs.Descent
import NotationCalculator.Proofs.InOrderReading
import NotationCalculator.Proofs.StackReading

/-!
# What evaluating and answering a line can do

An evaluation gives a value, which becomes the last answer, or it has a fault and changes nothing;
with tables that have no faults there is always a value. The settings have a text as long as the
precision has no more digits than are written. A line of the console is a command or an expression,
and what it makes of the calculator is one of few things.
-/
namespace NotationCalculator

variable {c : Calculator} {text line : String}

theorem PostOrder.value_ne_fault {scope : Scope} (hfree : scope.tables.FaultFree)
    (tokens : List String) (cause : Fault) : value scope tokens ≠ .error (.fault cause) := by
  by_cases haccepts : Accepts scope tokens
  · obtain ⟨x, hx⟩ := haccepts
    simp [value_of_run hx]
  · simp [value_of_not_accepts hfree haccepts]

theorem PreOrder.value_ne_fault {scope : Scope} (hfree : scope.tables.FaultFree)
    (tokens : List String) (cause : Fault) : value scope tokens ≠ .error (.fault cause) := by
  by_cases hreads : Reads scope tokens
  · obtain ⟨x, hx⟩ := hreads
    simp [value_of_readValue hx]
  · simp [value_of_not_reads hfree hreads]

theorem Dialect.value_ne_fault {scope : Scope} (hfree : scope.tables.FaultFree)
    (dialect : Dialect) (text : String) (cause : Fault) :
    dialect.value scope text ≠ .error (.fault cause) := by
  cases dialect with
  | preOrder tables => exact PreOrder.value_ne_fault hfree _ cause
  | inOrder => exact PostOrder.value_ne_fault hfree _ cause
  | postOrder tables => exact PostOrder.value_ne_fault hfree _ cause

namespace Settings

variable {settings : Settings}

theorem isWritable_of_lt (h : settings.precision < 9223372036854775808) :
    settings.IsWritable := by
  have hdigits : (Nat.toDigits 10 settings.precision).length ≤ 19 :=
    (Nat.length_toDigits_le_iff (by decide) (by decide)).mpr (h.trans (by decide))
  exact hdigits.trans (by decide)

theorem writtenPrecision_of_isWritable (h : settings.IsWritable) :
    settings.writtenPrecision = .ok (toString settings.precision) := if_pos h

theorem writtenPrecision_of_not_isWritable (h : ¬ settings.IsWritable) :
    settings.writtenPrecision = .error .precisionUnwritable := if_neg h

theorem text_of_isWritable (h : settings.IsWritable) :
    settings.text = .ok ("angles: " ++ settings.angleUnit.label ++ ", precision: " ++
      toString settings.precision) := by
  rw [text, writtenPrecision_of_isWritable h]
  rfl

theorem text_of_not_isWritable (h : ¬ settings.IsWritable) :
    settings.text = .error .precisionUnwritable := by
  rw [text, writtenPrecision_of_not_isWritable h]
  rfl

theorem exists_text_iff : (∃ shown, settings.text = .ok shown) ↔ settings.IsWritable := by
  constructor
  · rintro ⟨shown, hshown⟩
    by_contra h
    rw [text_of_not_isWritable h] at hshown
    cases hshown
  · exact fun h => ⟨_, text_of_isWritable h⟩

end Settings

namespace Calculator

/-- All that an evaluation can do. -/
theorem evaluate_cases (c : Calculator) (text : String) :
    (∃ x, c.evaluate text = (.ok x, { c with lastAnswer := x })) ∨
    ∃ cause, c.evaluate text = (.error cause, c) := by
  unfold evaluate
  split
  · next x _ => exact .inl ⟨x, rfl⟩
  · next cause _ => exact .inr ⟨cause, rfl⟩

theorem evaluate_eq_error {cause : Fault} (h : (c.evaluate text).1 = .error cause) :
    c.dialect.value c.scope text = .error (.fault cause) ∧ (c.evaluate text).2 = c := by
  rw [← Failure.settle_eq_error_iff]
  unfold evaluate at h ⊢
  split at h
  · cases h
  · next other hsettle =>
    obtain rfl := Except.error.inj h
    exact ⟨hsettle, rfl⟩

theorem exists_evaluate_eq_ok (hfree : c.tables.FaultFree) (text : String) :
    ∃ x, c.evaluate text = (.ok x, { c with lastAnswer := x }) := by
  have hscope : c.scope.tables.FaultFree := hfree
  obtain ⟨x, hx⟩ := Failure.exists_settle_eq_ok (c.dialect.value_ne_fault hscope text)
  exact ⟨x, evaluate_of_settle hx⟩

end Calculator

namespace Console

open Text

/-- The calculator after a sequence of lines, whether or not they end in errors. -/
def after (c : Calculator) (lines : List String) : Calculator :=
  lines.foldl (fun c line => (handle c line).2) c

@[simp] theorem after_nil (c : Calculator) : after c [] = c := rfl

@[simp] theorem after_cons (c : Calculator) (line : String) (lines : List String) :
    after c (line :: lines) = after (handle c line).2 lines := rfl

theorem handle_of_command {command : Command} (h : Command.ofLine? line = some command) :
    handle c line = obey c command := by
  rw [handle, h]

theorem handle_of_expression (h : Command.ofLine? line = none) :
    handle c line = answer c line := by
  rw [handle, h]

/-- All that answering an expression can do. -/
theorem answer_cases (c : Calculator) (line : String) :
    (∃ x, c.evaluate line = (.ok x, { c with lastAnswer := x }) ∧
      answer c line = (show? c.settings line x, { c with lastAnswer := x })) ∨
    ∃ cause, c.evaluate line = (.error cause, c) ∧ answer c line = (.error (.fault cause), c) := by
  rcases c.evaluate_cases line with ⟨x, hx⟩ | ⟨cause, hcause⟩
  · exact .inl ⟨x, hx, by rw [answer, hx]⟩
  · exact .inr ⟨cause, hcause, by rw [answer, hcause]⟩

/-- All that a line can make of the calculator. -/
inductive Effect (c : Calculator) (line : String) : Calculator → Prop
  | none : Effect c line c
  | switchTo (new : Notation) : Effect c line { dialect := new.dialect, settings := c.settings }
  | angleUnit (unit : AngleUnit) :
      Effect c line { c with settings := { c.settings with angleUnit := unit } }
  | precision {digits : List Nat} : Command.ofLine? line = some (.precision digits) →
      digits.length ≤ 4300 →
      Effect c line { c with settings := { c.settings with precision := positional digits } }
  | value {x : Binary64} : c.evaluate line = (.ok x, { c with lastAnswer := x }) →
      Effect c line { c with lastAnswer := x }

theorem effect (c : Calculator) (line : String) : Effect c line (handle c line).2 := by
  cases hcommand : Command.ofLine? line with
  | some command =>
    rw [handle_of_command hcommand]
    cases command with
    | help | settings => exact .none
    | switchTo new => exact .switchTo new
    | angleUnit unit => exact .angleUnit unit
    | precision digits =>
      rw [obey]
      split
      · next hfew => exact .precision hcommand hfew
      · exact .none
  | none =>
    rw [handle_of_expression hcommand]
    obtain ⟨x, hx, hanswer⟩ | ⟨cause, -, hanswer⟩ := answer_cases c line
    · rw [hanswer]
      exact .value hx
    · rw [hanswer]
      exact .none

end Console
end NotationCalculator
