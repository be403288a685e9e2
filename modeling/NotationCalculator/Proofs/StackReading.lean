import NotationCalculator.Calculator
import NotationCalculator.Expression
import NotationCalculator.Proofs.Faults
import NotationCalculator.Proofs.Listings

/-!
# What the stack machine accepts

Each value on the stack is that of an expression whose listing has been read, and these listings
make up all the tokens read so far. So one value is left at the end exactly when the tokens list a
tree, and it is the value of that tree. A name that both tables have is an operator of one operand
only: its entry among the operators of two plays no part.
-/
namespace NotationCalculator.PostOrder

/-- One value is left when all tokens have been read. -/
def Accepts (scope : Scope) (tokens : List String) : Prop := ∃ x, run scope [] tokens = .ok [x]

/-- The tokens list this tree, and each has the role of its place. -/
def IsListing (scope : Scope) (t : Tree) (tokens : List String) : Prop :=
  t.Fits scope isAnswer ∧ t.postOrder = tokens

/-- The tokens are the listings of trees one after the other, and the values of these trees are on
the stack, that of the last one on top. -/
inductive Stacked (scope : Scope) : List String → List Binary64 → Prop
  | nil : Stacked scope [] []
  | push {tokens : List String} {stack : List Binary64} {t : Tree} {x : Binary64} :
      Stacked scope tokens stack → t.Fits scope isAnswer → t.eval scope isAnswer = .ok x →
      Stacked scope (tokens ++ t.postOrder) (x :: stack)

variable {scope : Scope} {stack stack' : List Binary64} {token : String} {tokens : List String}

/-- All that a step can do when it succeeds. -/
theorem step_cases (h : step scope stack token = .ok stack') :
    (∃ x, scope.role isAnswer token = .operand x ∧ stack' = x :: stack) ∨
    (∃ x y rest, scope.role isAnswer token = .unary ∧ stack = x :: rest ∧
      scope.applyUnary token x = .ok y ∧ stack' = y :: rest) ∨
    (∃ x y z rest, scope.role isAnswer token = .binary ∧ stack = y :: x :: rest ∧
      scope.applyBinary token x y = .ok z ∧ stack' = z :: rest) := by
  rw [step_eq_of_role] at h
  split at h
  · next x hrole =>
    exact .inl ⟨x, hrole, (Except.ok.inj h).symm⟩
  · next x rest hrole =>
    obtain ⟨y, hy, rfl⟩ := Failure.map_eq_ok_iff.mp h
    exact .inr (.inl ⟨x, y, rest, hrole, rfl, Failure.mapError_eq_ok_iff.mp hy, rfl⟩)
  · next y x rest hrole =>
    obtain ⟨z, hz, rfl⟩ := Failure.map_eq_ok_iff.mp h
    exact .inr (.inr ⟨x, y, z, rest, hrole, rfl, Failure.mapError_eq_ok_iff.mp hz, rfl⟩)
  · cases h

theorem Stacked.step (hs : Stacked scope tokens stack)
    (h : PostOrder.step scope stack token = .ok stack') :
    Stacked scope (tokens ++ [token]) stack' := by
  obtain ⟨x, hrole, rfl⟩ | ⟨x, y, rest, hrole, rfl, hy, rfl⟩ |
    ⟨x, y, z, rest, hrole, rfl, hz, rfl⟩ := step_cases h
  · have heval : (Tree.operand token).eval scope isAnswer = .ok x := by
      simp [Tree.eval, Tree.leafValue, hrole]
    exact hs.push (t := .operand token) ⟨x, hrole⟩ heval
  · cases hs with
    | @push before _ t _ hs ht hx =>
      have heval : (Tree.unary token t).eval scope isAnswer = .ok y := by
        rw [Tree.eval, hx]
        exact hy
      have hpush := hs.push (t := .unary token t) ⟨hrole, ht⟩ heval
      rwa [Tree.postOrder, ← List.append_assoc] at hpush
  · cases hs with
    | push hs hu hv =>
      cases hs with
      | @push before _ t _ hs ht hx =>
        next u =>
        have heval : (Tree.binary token t u).eval scope isAnswer = .ok z := by
          rw [Tree.eval, hx, hv]
          exact hz
        have hpush := hs.push (t := .binary token t u) ⟨hrole, ht, hu⟩ heval
        rwa [Tree.postOrder, ← List.append_assoc, ← List.append_assoc] at hpush

theorem Stacked.run {more : List String} (hs : Stacked scope tokens stack)
    (h : PostOrder.run scope stack more = .ok stack') :
    Stacked scope (tokens ++ more) stack' := by
  induction more generalizing tokens stack with
  | nil =>
    cases h
    rwa [List.append_nil]
  | cons token more ih =>
    rw [PostOrder.run, List.foldlM_cons] at h
    obtain ⟨next, hstep, hrest⟩ := Failure.bind_eq_ok_iff.mp h
    have hall := ih (hs.step hstep) hrest
    rwa [List.append_assoc, List.singleton_append] at hall

theorem Stacked.single {x : Binary64} (hs : Stacked scope tokens [x]) :
    ∃ t, IsListing scope t tokens ∧ t.eval scope isAnswer = .ok x := by
  cases hs with
  | @push before _ t _ hs ht hx =>
    cases hs
    exact ⟨t, ⟨ht, rfl⟩, hx⟩

theorem run_eq_single_iff {x : Binary64} :
    run scope [] tokens = .ok [x] ↔
      ∃ t, IsListing scope t tokens ∧ t.eval scope isAnswer = .ok x := by
  constructor
  · intro h
    exact (Stacked.nil.run h).single
  · rintro ⟨t, ⟨ht, rfl⟩, hx⟩
    rw [run_postOrder ht, hx]
    rfl

theorem IsListing.unique {t u : Tree} (ht : IsListing scope t tokens)
    (hu : IsListing scope u tokens) : t = u :=
  Tree.postOrder_inj ht.1 hu.1 (ht.2.trans hu.2.symm)

theorem step_ne_fault (hfree : scope.tables.FaultFree) (stack : List Binary64) (token : String)
    (cause : Fault) : step scope stack token ≠ .error (.fault cause) := by
  rw [step_eq_of_role]
  split
  · simp
  · next x rest hrole =>
    obtain ⟨y, hy⟩ := Scope.exists_applyUnary_eq_ok hfree token x
    simp [hy, Except.map]
  · next y x rest hrole =>
    obtain ⟨z, hz⟩ := Scope.exists_applyBinary_eq_ok hfree token x y
    simp [hz, Except.map]
  · simp

theorem run_ne_fault (hfree : scope.tables.FaultFree) (stack : List Binary64)
    (tokens : List String) (cause : Fault) : run scope stack tokens ≠ .error (.fault cause) := by
  induction tokens generalizing stack with
  | nil => simp
  | cons token tokens ih =>
    intro h
    rw [run, List.foldlM_cons] at h
    rcases Failure.bind_eq_error_iff.mp h with hstep | ⟨next, -, hrest⟩
    · exact step_ne_fault hfree stack token cause hstep
    · exact ih next hrest

theorem value_of_run {x : Binary64} (h : run scope [] tokens = .ok [x]) :
    value scope tokens = .ok x := by
  rw [value, h]
  rfl

theorem value_of_not_accepts (hfree : scope.tables.FaultFree) (h : ¬ Accepts scope tokens) :
    value scope tokens = .error .undefined := by
  rw [value]
  match hrun : run scope [] tokens with
  | .ok [x] => exact absurd ⟨x, hrun⟩ h
  | .ok [] => rfl
  | .ok (_ :: _ :: _) => rfl
  | .error .undefined => rfl
  | .error (.fault cause) => exact absurd hrun (run_ne_fault hfree [] tokens cause)

/-- The listing of a tree has the value of the tree. -/
theorem value_postOrder {t : Tree} (ht : t.Fits scope isAnswer) :
    value scope t.postOrder = (t.eval scope isAnswer).mapError .fault := by
  rw [value, run_postOrder ht]
  cases t.eval scope isAnswer <;> rfl

/-- The operators of two operands whose names are also those of operators of one may be changed in
any way. -/
theorem step_congr_binary {tables : OperatorTables} {binary : OperatorTable BinaryFunction}
    (h : ∀ name, tables.unary.contains name = false →
      binary.find? name = tables.binary.find? name) (unit : AngleUnit) (last : Binary64) :
    step ⟨{ tables with binary }, unit, last⟩ = step ⟨tables, unit, last⟩ := by
  funext stack token
  unfold step
  cases hu : tables.unary.contains token with
  | true => rcases stack with _ | ⟨y, _ | ⟨x, stack⟩⟩ <;> rfl
  | false =>
    have hfind := h token hu
    simp only [OperatorTable.contains, Scope.applyBinary, hfind]
    rfl

/-- Exactly the listings of trees are accepted, and each of them is of one tree, whose value is
the answer. All else has the answer `nan`. An operator of two operands that shares its name with
one of one operand is never applied: any other function in its place gives the same. -/
theorem accepts_iff_listing {tables : OperatorTables} (hfree : tables.FaultFree)
    (settings : Settings) (last : Binary64) (tokens : List String) :
    let c : Calculator := ⟨.postOrder tables, settings, last⟩
    (Accepts c.scope tokens ↔ ∃ t, IsListing c.scope t tokens) ∧
    (∀ t u, IsListing c.scope t tokens → IsListing c.scope u tokens → t = u) ∧
    (∀ t, IsListing c.scope t tokens → ∃ x, t.eval c.scope isAnswer = .ok x ∧
      ∀ text, Text.words text = tokens →
        c.evaluate text = (.ok x, { c with lastAnswer := x })) ∧
    ((¬ ∃ t, IsListing c.scope t tokens) → ∀ text, Text.words text = tokens →
      c.evaluate text = (.ok .nan, { c with lastAnswer := .nan })) ∧
    (∀ binary : OperatorTable BinaryFunction,
      (∀ name, tables.unary.contains name = false →
        binary.find? name = tables.binary.find? name) →
      run ⟨{ tables with binary }, settings.angleUnit, last⟩ [] tokens =
        run c.scope [] tokens) := by
  intro c
  have hiff : Accepts c.scope tokens ↔ ∃ t, IsListing c.scope t tokens := by
    constructor
    · rintro ⟨x, hx⟩
      obtain ⟨t, ht, -⟩ := run_eq_single_iff.mp hx
      exact ⟨t, ht⟩
    · rintro ⟨t, ht⟩
      obtain ⟨x, hx⟩ := Tree.exists_eval_eq_ok c.scope hfree isAnswer t
      exact ⟨x, run_eq_single_iff.mpr ⟨t, ht, hx⟩⟩
  refine ⟨hiff, fun t u ht hu => ht.unique hu, ?_, ?_, ?_⟩
  · intro t ht
    obtain ⟨x, hx⟩ := Tree.exists_eval_eq_ok c.scope hfree isAnswer t
    refine ⟨x, hx, ?_⟩
    rintro text rfl
    have hvalue := value_of_run (run_eq_single_iff.mpr ⟨t, ht, hx⟩)
    exact Calculator.evaluate_of_settle (congrArg Failure.settle hvalue)
  · rintro hnone text rfl
    have hvalue := value_of_not_accepts hfree (mt hiff.mp hnone)
    exact Calculator.evaluate_of_settle (congrArg Failure.settle hvalue)
  · intro binary hbinary
    rw [run, step_congr_binary hbinary]
    rfl

/-- Tables that have `-` for an operator of one operand and for one of two that is never defined. -/
def sharedMinus : OperatorTables where
  unary := ⟨[("-", Operator.totalUnary .neg)]⟩
  binary := ⟨[("-", fun _ _ => .error .undefined), ("+", Operator.totalBinary .add)]⟩

theorem sharedMinus_faultFree : sharedMinus.FaultFree where
  unary name f hf x cause := by
    simp only [sharedMinus, OperatorTable.find?, List.lookup_cons, List.lookup_nil] at hf
    split at hf
    · cases hf
      simp [Operator.totalUnary]
    · cases hf
  binary name f hf x y cause := by
    simp only [sharedMinus, OperatorTable.find?, List.lookup_cons, List.lookup_nil] at hf
    split at hf
    · cases hf
      simp
    split at hf
    · cases hf
      simp [Operator.totalBinary]
    · cases hf

theorem evaluate_shared_minus :
    let c : Calculator := ⟨.postOrder sharedMinus, {}, .nan⟩
    let t : Tree := .binary "+" (.operand "3") (.unary "-" (.operand "2"))
    sharedMinus.FaultFree ∧ IsListing c.scope t ["3", "2", "-", "+"] ∧
      ∃ x, t.eval c.scope isAnswer = .ok x ∧
        c.evaluate "3 2 - +" = (.ok x, { c with lastAnswer := x }) := by
  intro c t
  have ht : IsListing c.scope t ["3", "2", "-", "+"] :=
    ⟨⟨by decide, ⟨_, rfl⟩, by decide, _, rfl⟩, rfl⟩
  obtain ⟨-, -, heval, -⟩ := accepts_iff_listing sharedMinus_faultFree {} .nan ["3", "2", "-", "+"]
  obtain ⟨x, hx, htext⟩ := heval t ht
  exact ⟨sharedMinus_faultFree, ht, x, hx, htext "3 2 - +" (by decide)⟩

end NotationCalculator.PostOrder
