import NotationCalculator.Proofs.LastAnswer

/-!
# Operations that fail

An operation on a calculator either has an error, and then it leaves all of it as it was, or it
changes the one thing that it is about. What a calculator has become in a session is therefore what
the operations without errors have made of it: its precision is the whole part of the last number
that was not refused, a natural number, and one of in-order notation has the standard operators
throughout, with which no text has an error.
-/
namespace NotationCalculator

/-- The number that an operation gives for the precision, unless it is refused. -/
def Operation.places? : Operation → Option Rat
  | .setPrecision places => if places < 0 then none else some places
  | _ => none

theorem OperatorTables.FaultFree.congr {tables tables' : OperatorTables} (h : tables.FaultFree)
    (hunary : tables'.unary.find? = tables.unary.find?)
    (hbinary : tables'.binary.find? = tables.binary.find?) : tables'.FaultFree where
  unary name f hf := h.unary name f (by rw [← hunary, hf])
  binary name f hf := h.binary name f (by rw [← hbinary, hf])

namespace Calculator

variable {c : Calculator} {operation : Operation}

theorem perform_of_error {e : Error} (h : (c.perform operation).1 = .error e) :
    (c.perform operation).2 = c := by
  have hperformed := c.performed operation
  generalize c.perform operation = result at h hperformed
  cases hperformed with
  | failed => rfl
  | done answer heffect => cases h

theorem precision_perform_of_ne (c : Calculator) (h : ∀ places, operation ≠ .setPrecision places) :
    (c.perform operation).2.settings.precision = c.settings.precision := by
  refine perform_of_effect (p := (·.settings.precision = c.settings.precision)) rfl ?_
  intro after heffect
  cases heffect with
  | setPrecision hplaces => exact absurd rfl (h _)
  | _ => rfl

theorem precision_perform (c : Calculator) (operation : Operation) :
    ((c.perform operation).2.settings.precision : ℤ) =
      (operation.places?.map Rat.floor).getD c.settings.precision := by
  by_cases h : ∃ places, operation = .setPrecision places
  · obtain ⟨places, rfl⟩ := h
    by_cases hneg : places < 0
    · have hrefused : c.settings.setPrecision places = .error .negativePrecision := if_pos hneg
      simp only [perform, change, setPrecision, hrefused, Operation.places?, if_pos hneg]
      rfl
    · have hset : c.settings.setPrecision places =
          .ok { c.settings with precision := places.floor.toNat } := if_neg hneg
      have hfloor : 0 ≤ places.floor := Rat.le_floor_iff.mpr (Rat.not_lt.mp hneg)
      simp only [perform, change, setPrecision, hset, Operation.places?, if_neg hneg]
      exact Int.toNat_of_nonneg hfloor
  · have hother : ∀ places, operation ≠ .setPrecision places := fun places heq => h ⟨places, heq⟩
    have hnone : operation.places? = none := by
      cases operation with
      | setPrecision places => exact absurd rfl (hother places)
      | _ => rfl
    rw [c.precision_perform_of_ne hother, hnone]
    rfl

theorem dialect_perform (h : c.dialect = .inOrder) (operation : Operation) :
    (c.perform operation).2.dialect = .inOrder := by
  refine perform_of_effect (p := (·.dialect = .inOrder)) h ?_
  intro after heffect
  cases heffect with
  | setUnaryOperators htables | setBinaryOperators htables =>
    rw [h] at htables
    cases htables
  | _ => exact h

theorem dialect_after (h : c.dialect = .inOrder) (operations : List Operation) :
    (c.after operations).dialect = .inOrder := by
  induction operations generalizing c with
  | nil => exact h
  | cons operation operations ih => exact ih (dialect_perform h operation)

theorem precision_after (c : Calculator) (operations : List Operation) :
    ((c.after operations).settings.precision : ℤ) =
      ((operations.filterMap Operation.places?).map Rat.floor).getLastD c.settings.precision := by
  induction operations generalizing c with
  | nil => rfl
  | cons operation operations ih =>
    rw [after_cons, ih, precision_perform, ← getLastD_toList_append, List.filterMap_cons]
    cases operation.places? with
    | none => rfl
    | some places => rfl

/-- In every state that a calculator comes to in a session, an operation with an error leaves it
unchanged as a whole. Its precision is the whole part of the last number that was given for it and
is not negative, and `2` before the first. One of in-order notation has the standard operators, and
no others can be set. With the standard operators every text is evaluated without an error. -/
theorem failed_operation_changes_nothing (dialect : Dialect) (operations : List Operation) :
    let c := (⟨dialect, {}, .nan⟩ : Calculator).after operations
    (∀ operation e, (c.perform operation).1 = .error e → (c.perform operation).2 = c) ∧
    (c.settings.precision : ℤ) =
      ((operations.filterMap Operation.places?).map Rat.floor).getLastD 2 ∧
    (dialect = .inOrder → c.tables = .standard ∧
      (∀ table, c.perform (.setUnaryOperators table) = (.error .fixedUnaryOperators, c)) ∧
      ∀ table, c.perform (.setBinaryOperators table) = (.error .fixedBinaryOperators, c)) ∧
    (c.tables.unary.find? = OperatorTables.standard.unary.find? →
      c.tables.binary.find? = OperatorTables.standard.binary.find? →
      ∀ text, ∃ x, c.perform (.evaluate text) = (.ok (.value x), { c with lastAnswer := x })) := by
  intro c
  refine ⟨fun operation e => perform_of_error, precision_after _ operations, ?_, ?_⟩
  · rintro rfl
    have hdialect : c.dialect = .inOrder := dialect_after rfl operations
    refine ⟨by rw [tables, hdialect, Dialect.tables], fun table => ?_, fun table => ?_⟩
    · simp only [perform, setUnaryOperators, hdialect, Dialect.withTables?, change]
    · simp only [perform, setBinaryOperators, hdialect, Dialect.withTables?, change]
  · intro hunary hbinary text
    have hfree := OperatorTables.standard_faultFree.congr hunary hbinary
    obtain ⟨x, hx⟩ := c.exists_evaluate_eq_ok hfree text
    refine ⟨x, ?_⟩
    simp only [perform, hx]
    rfl

/-- A function with a fault after other operations, and a calculator of in-order notation. -/
theorem failed_operation_of_fault :
    let boom : UnaryFunction := fun _ => .error (.fault ⟨"fault", "boom"⟩)
    let faulty : Dialect := .postOrder ⟨⟨[("boom", boom)]⟩, ⟨[]⟩⟩
    let c := (⟨faulty, {}, .nan⟩ : Calculator).after [.evaluate "7", .setPrecision 3]
    let d := (⟨.inOrder, {}, .nan⟩ : Calculator).after [.setAngleUnit "deg", .setPrecision (-1)]
    ((c.perform (.evaluate "1 boom")).1 = .error (.fault ⟨"fault", "boom"⟩) ∧
      (c.perform (.evaluate "1 boom")).2 = c) ∧
    Dialect.inOrder = .inOrder ∧ d.tables = .standard ∧
    d.tables.unary.find? = OperatorTables.standard.unary.find? ∧
    d.tables.binary.find? = OperatorTables.standard.binary.find? ∧
    ∃ x, d.perform (.evaluate "1 +") = (.ok (.value x), { d with lastAnswer := x }) := by
  intro boom faulty c d
  have hfault : (c.perform (.evaluate "1 boom")).1 = .error (.fault ⟨"fault", "boom"⟩) := by
    decide +kernel
  obtain ⟨hsame, -⟩ := failed_operation_changes_nothing faulty [.evaluate "7", .setPrecision 3]
  obtain ⟨-, -, hfixed, hvalue⟩ :=
    failed_operation_changes_nothing .inOrder [.setAngleUnit "deg", .setPrecision (-1)]
  obtain ⟨htables, -⟩ := hfixed rfl
  have hunary : d.tables.unary.find? = OperatorTables.standard.unary.find? := by rw [htables]
  have hbinary : d.tables.binary.find? = OperatorTables.standard.binary.find? := by rw [htables]
  exact ⟨⟨hfault, hsame _ _ hfault⟩, rfl, htables, hunary, hbinary, hvalue hunary hbinary "1 +"⟩

end Calculator
end NotationCalculator
