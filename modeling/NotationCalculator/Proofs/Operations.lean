import NotationCalculator.Proofs.Outcomes
import NotationCalculator.Session

/-!
# What operations can do

An operation has an error, and then the calculator is as it was, or an answer and an effect on the
calculator. What a session keeps or changes is read off the effects.
-/
namespace NotationCalculator

/-- What an operation that has no error makes of the calculator. -/
inductive Operation.Effect (c : Calculator) : Operation → Calculator → Prop
  | evaluate {text : String} {x : Binary64} :
      c.evaluate text = (.ok x, { c with lastAnswer := x }) →
      Effect c (.evaluate text) { c with lastAnswer := x }
  | setAngleUnit {name : String} {unit : AngleUnit} : AngleUnit.ofText? name = some unit →
      Effect c (.setAngleUnit name) { c with settings := { c.settings with angleUnit := unit } }
  | setPrecision {places : Rat} : ¬ places < 0 →
      Effect c (.setPrecision places)
        { c with settings := { c.settings with precision := places.floor.toNat } }
  | setUnaryOperators {table : OperatorTable UnaryFunction} {dialect : Dialect} :
      c.dialect.withTables? { c.tables with unary := table } = some dialect →
      Effect c (.setUnaryOperators table) { c with dialect }
  | setBinaryOperators {table : OperatorTable BinaryFunction} {dialect : Dialect} :
      c.dialect.withTables? { c.tables with binary := table } = some dialect →
      Effect c (.setBinaryOperators table) { c with dialect }
  | reorder (text : String) : Effect c (.reorder text) c
  | applyUnary (name : String) (x : Binary64) : Effect c (.applyUnary name x) c
  | applyBinary (name : String) (x y : Binary64) : Effect c (.applyBinary name x y) c
  | render (x : Binary64) : Effect c (.render x) c
  | settings : Effect c .settings c
  | operatorNames : Effect c .operatorNames c

theorem Settings.setAngleUnit_eq_ok_iff {settings settings' : Settings} {name : String} :
    settings.setAngleUnit name = .ok settings' ↔
      ∃ unit, AngleUnit.ofText? name = some unit ∧
        settings' = { settings with angleUnit := unit } := by
  rw [setAngleUnit]
  cases AngleUnit.ofText? name with
  | none => simp
  | some unit => simp [eq_comm]

theorem Settings.setPrecision_eq_ok_iff {settings settings' : Settings} {places : Rat} :
    settings.setPrecision places = .ok settings' ↔
      ¬ places < 0 ∧ settings' = { settings with precision := places.floor.toNat } := by
  rw [setPrecision]
  split_ifs with hneg
  · simp [hneg]
  · simp [hneg, eq_comm]

namespace Calculator

open Operation (Effect)

variable {c : Calculator} {operation : Operation}

/-- All that can come of an operation: an error and nothing else, or an answer and its effect. -/
inductive Performed (c : Calculator) (operation : Operation) :
    Except Error Answer × Calculator → Prop
  | failed (e : Error) : Performed c operation (.error e, c)
  | done {after : Calculator} (answer : Answer) :
      Effect c operation after → Performed c operation (.ok answer, after)

theorem performed_show (answer : Except Error Answer) (h : Effect c operation c) :
    Performed c operation (answer, c) := by
  cases answer with
  | ok answer => exact .done answer h
  | error e => exact .failed e

theorem performed_change {changed : Except Error Calculator}
    (h : ∀ after, changed = .ok after → Effect c operation after) :
    Performed c operation (c.change changed) := by
  cases changed with
  | ok after => exact .done .done (h after rfl)
  | error e => exact .failed e

theorem performed (c : Calculator) (operation : Operation) :
    Performed c operation (c.perform operation) := by
  cases operation with
  | evaluate text =>
    rcases c.evaluate_cases text with ⟨x, hx⟩ | ⟨cause, hcause⟩
    · simp only [perform, hx]
      exact .done (.value x) (.evaluate hx)
    · simp only [perform, hcause]
      exact .failed (.fault cause)
  | setAngleUnit name =>
    rw [perform]
    refine performed_change fun after hafter => ?_
    obtain ⟨settings, hsettings, hafter⟩ := Failure.bind_eq_ok_iff.mp hafter
    obtain ⟨unit, hunit, rfl⟩ := Settings.setAngleUnit_eq_ok_iff.mp hsettings
    obtain rfl := Except.ok.inj hafter
    exact .setAngleUnit hunit
  | setPrecision places =>
    rw [perform]
    refine performed_change fun after hafter => ?_
    obtain ⟨settings, hsettings, hafter⟩ := Failure.bind_eq_ok_iff.mp hafter
    obtain ⟨hplaces, rfl⟩ := Settings.setPrecision_eq_ok_iff.mp hsettings
    obtain rfl := Except.ok.inj hafter
    exact .setPrecision hplaces
  | setUnaryOperators table =>
    rw [perform]
    refine performed_change fun after hafter => ?_
    unfold setUnaryOperators at hafter
    split at hafter
    · next dialect hdialect =>
      obtain rfl := Except.ok.inj hafter
      exact .setUnaryOperators hdialect
    · cases hafter
  | setBinaryOperators table =>
    rw [perform]
    refine performed_change fun after hafter => ?_
    unfold setBinaryOperators at hafter
    split at hafter
    · next dialect hdialect =>
      obtain rfl := Except.ok.inj hafter
      exact .setBinaryOperators hdialect
    · cases hafter
  | reorder text => rw [perform]; exact performed_show _ (.reorder text)
  | applyUnary name x => rw [perform]; exact performed_show _ (.applyUnary name x)
  | applyBinary name x y => rw [perform]; exact performed_show _ (.applyBinary name x y)
  | render x => rw [perform]; exact performed_show _ (.render x)
  | settings => rw [perform]; exact performed_show _ .settings
  | operatorNames => rw [perform]; exact performed_show _ .operatorNames

/-- What is so before an operation, and so after every effect that it has, is so after it. -/
theorem perform_of_effect {p : Calculator → Prop} (hbefore : p c)
    (heffect : ∀ after, Effect c operation after → p after) : p (c.perform operation).2 := by
  have hperformed := c.performed operation
  generalize c.perform operation = result at hperformed
  cases hperformed with
  | failed => exact hbefore
  | done answer h => exact heffect _ h

end Calculator
end NotationCalculator
