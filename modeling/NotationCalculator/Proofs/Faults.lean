import NotationCalculator.Expression

/-!
# Tables without faults

Where no function of the tables raises a fault, every operator gives a number or `nan`, and so does
every tree. The standard operators are of this kind.
-/
namespace NotationCalculator

/-- A function of these tables that has no number to give is undefined, for no other reason. -/
structure OperatorTables.FaultFree (tables : OperatorTables) : Prop where
  unary : ∀ name f, tables.unary.find? name = some f → ∀ x cause, f x ≠ .error (.fault cause)
  binary : ∀ name f, tables.binary.find? name = some f →
    ∀ x y cause, f x y ≠ .error (.fault cause)

theorem OperatorTables.standard_faultFree : OperatorTables.standard.FaultFree where
  unary name f hf x cause := by
    obtain ⟨g, -, rfl⟩ := exists_standard_unary hf
    simp [Operator.totalUnary]
  binary name f hf x y cause := by
    obtain ⟨g, -, rfl⟩ := exists_standard_binary hf
    simp [Operator.totalBinary]

theorem Failure.exists_settle_eq_ok {r : Except Failure Binary64}
    (hr : ∀ cause, r ≠ .error (.fault cause)) : ∃ x, settle r = .ok x := by
  match r, hr with
  | .ok x, _ => exact ⟨x, rfl⟩
  | .error .undefined, _ => exact ⟨.nan, rfl⟩
  | .error (.fault cause), hr => exact absurd rfl (hr cause)

variable {scope : Scope}

theorem Scope.exists_applyUnary_eq_ok (hs : scope.tables.FaultFree) (name : String)
    (x : Binary64) : ∃ y, scope.applyUnary name x = .ok y := by
  cases hf : scope.tables.unary.find? name with
  | none => exact ⟨.nan, applyUnary_of_not_mem hf x⟩
  | some f =>
    have hx := hs.unary name f hf (operandIn scope.angleUnit name x)
    simp only [applyUnary, hf]
    apply Failure.exists_settle_eq_ok
    intro cause h
    cases hfx : f (operandIn scope.angleUnit name x) with
    | ok y => simp [hfx, Except.map] at h
    | error e =>
      simp only [hfx, Except.map, Except.error.injEq] at h
      exact hx cause (h ▸ hfx)

theorem Scope.exists_applyBinary_eq_ok (hs : scope.tables.FaultFree) (name : String)
    (x y : Binary64) : ∃ z, scope.applyBinary name x y = .ok z := by
  cases hf : scope.tables.binary.find? name with
  | none => exact ⟨.nan, applyBinary_of_not_mem hf x y⟩
  | some f =>
    simp only [applyBinary, hf]
    exact Failure.exists_settle_eq_ok (hs.binary name f hf x y)

theorem Tree.exists_eval_eq_ok (scope : Scope) (hs : scope.tables.FaultFree)
    (isAnswer : String → Bool) (t : Tree) : ∃ x, t.eval scope isAnswer = .ok x := by
  induction t with
  | operand token => exact ⟨leafValue scope isAnswer token, rfl⟩
  | unary operator argument ih =>
    obtain ⟨x, hx⟩ := ih
    obtain ⟨y, hy⟩ := Scope.exists_applyUnary_eq_ok hs operator x
    exact ⟨y, by rw [eval, hx]; exact hy⟩
  | binary operator left right ihLeft ihRight =>
    obtain ⟨x, hx⟩ := ihLeft
    obtain ⟨y, hy⟩ := ihRight
    obtain ⟨z, hz⟩ := Scope.exists_applyBinary_eq_ok hs operator x y
    exact ⟨z, by rw [eval, hx, hy]; exact hz⟩

end NotationCalculator
