import NotationCalculator.Proofs.Meaning

/-!
# What hides a value that is not a number

Of the standard operators only two ever make a number of `nan`: rounding, and a power of `nan` to a
zero. Every other operator hands `nan` on, whichever operand it is and in either angle unit. So a
part of an expression that has no number leaves the whole without one, in every notation, unless one
of these two stands above it.
-/
namespace NotationCalculator

/-- What tables do with `nan`. Their operators of one operand hand it on, all but rounding. Those of
two hand it on from the right, and from the left as well, but for a power with a zero exponent. -/
structure OperatorTables.CarryNaN (tables : OperatorTables) : Prop where
  unary : ∀ name f, tables.unary.find? name = some f → name ≠ "~" → f .nan = .ok .nan
  rounding : ∃ f x, tables.unary.find? "~" = some f ∧ f .nan = .ok x ∧ x ≠ .nan
  right : ∀ name f, tables.binary.find? name = some f → ∀ x, f x .nan = .ok .nan
  left : ∀ name f, tables.binary.find? name = some f → name ≠ "^" → ∀ y, f .nan y = .ok .nan
  power : ∃ f, tables.binary.find? "^" = some (Operator.totalBinary f) ∧
    ∀ y, f .nan y = .nan ↔ ∀ negative, y ≠ .zero negative

/-- The part stands in the tree at a place with no rounding above it, and in the base of no power
whose exponent comes to a zero. -/
inductive Tree.Exposed (scope : Scope) (isAnswer : String → Bool) (part : Tree) : Tree → Prop
  | whole : Exposed scope isAnswer part part
  | argument {operator : String} {argument : Tree} :
      operator ≠ "~" → Exposed scope isAnswer part argument →
      Exposed scope isAnswer part (.unary operator argument)
  | left {operator : String} {left right : Tree} :
      (operator = "^" → ∀ negative, right.eval scope isAnswer ≠ .ok (.zero negative)) →
      Exposed scope isAnswer part left → Exposed scope isAnswer part (.binary operator left right)
  | right {operator : String} {left right : Tree} :
      Exposed scope isAnswer part right → Exposed scope isAnswer part (.binary operator left right)

/-- A text for calculators of this kind writes the tree. In order it is the tree that its post-order
text lists, which a text may have that no rule of the grammar allows. -/
def Dialect.Writes (dialect : Dialect) (scope : Scope) (text : String) (t : Tree) : Prop :=
  match dialect with
  | .preOrder _ => PreOrder.IsListing scope t (Text.words text)
  | .inOrder => ∃ listing, InOrder.reorderTokens (InOrder.tokens text) = some listing ∧
      PostOrder.IsListing scope t listing
  | .postOrder _ => PostOrder.IsListing scope t (Text.words text)

variable {scope : Scope} {isAnswer : String → Bool} {name text : String} {part t : Tree}

namespace Operator

theorem standardUnaryFunctions_nan {entry : String × (Binary64 → Binary64)}
    (h : entry ∈ standardUnaryFunctions) (hname : entry.1 ≠ "~") : entry.2 .nan = .nan := by
  revert entry
  simp [standardUnaryFunctions]

theorem standardBinaryFunctions_nan_right {entry : String × (Binary64 → Binary64 → Binary64)}
    (h : entry ∈ standardBinaryFunctions) (x : Binary64) : entry.2 x .nan = .nan := by
  revert entry
  simp [standardBinaryFunctions]

theorem standardBinaryFunctions_nan_left {entry : String × (Binary64 → Binary64 → Binary64)}
    (h : entry ∈ standardBinaryFunctions) (hname : entry.1 ≠ "^") (y : Binary64) :
    entry.2 .nan y = .nan := by
  revert entry
  simp [standardBinaryFunctions]

end Operator

theorem OperatorTables.standard_carryNaN : OperatorTables.standard.CarryNaN where
  unary name f hf hname := by
    obtain ⟨g, hentry, rfl⟩ := exists_standard_unary hf
    exact congrArg Except.ok (Operator.standardUnaryFunctions_nan hentry hname)
  rounding := ⟨Operator.totalUnary .roundHalfUp, .zero false, rfl,
    congrArg Except.ok Binary64.roundHalfUp_nan, Binary64.ofRank_ne_nan _ _⟩
  right name f hf x := by
    obtain ⟨g, hentry, rfl⟩ := exists_standard_binary hf
    exact congrArg Except.ok (Operator.standardBinaryFunctions_nan_right hentry x)
  left name f hf hname y := by
    obtain ⟨g, hentry, rfl⟩ := exists_standard_binary hf
    exact congrArg Except.ok (Operator.standardBinaryFunctions_nan_left hentry hname y)
  power := ⟨.power, rfl, fun _ => Binary64.nan_power_eq_nan_iff⟩

namespace Scope

/-- Of the operators of one operand, rounding alone makes a number of `nan`. -/
theorem applyUnary_nan_iff (hcarry : scope.tables.CarryNaN) :
    scope.applyUnary name .nan = .ok .nan ↔ name ≠ "~" := by
  constructor
  · rintro happly rfl
    obtain ⟨f, x, hf, hround, hx⟩ := hcarry.rounding
    have hresult : resultIn scope.angleUnit "~" = id := resultIn_of_not_mem (by decide) _
    simp only [applyUnary, hf, operandIn_nan, hround, hresult, Except.map, id, Failure.settle_ok,
      Except.ok.injEq] at happly
    exact hx happly
  · intro hname
    cases hf : scope.tables.unary.find? name with
    | none => exact applyUnary_of_not_mem hf .nan
    | some f =>
      have hnan := hcarry.unary name f hf hname
      simp only [applyUnary, hf, operandIn_nan, hnan, Except.map, resultIn_nan, Failure.settle_ok]

theorem applyBinary_nan_right (hcarry : scope.tables.CarryNaN) (name : String) (x : Binary64) :
    scope.applyBinary name x .nan = .ok .nan := by
  cases hf : scope.tables.binary.find? name with
  | none => exact applyBinary_of_not_mem hf x .nan
  | some f => simp only [applyBinary, hf, hcarry.right name f hf x, Failure.settle_ok]

/-- Of the operators of two operands, only a power makes a number of `nan` and something else, and
only where `nan` is raised to a zero. -/
theorem applyBinary_nan_left_iff (hcarry : scope.tables.CarryNaN) {y : Binary64} :
    scope.applyBinary name .nan y = .ok .nan ↔ (name = "^" → ∀ negative, y ≠ .zero negative) := by
  by_cases hname : name = "^"
  · subst hname
    obtain ⟨f, hf, hpower⟩ := hcarry.power
    simp only [applyBinary, hf, Operator.totalBinary, Failure.settle_ok, Except.ok.injEq, hpower,
      forall_const]
  · refine iff_of_true ?_ (fun heq => absurd heq hname)
    cases hf : scope.tables.binary.find? name with
    | none => exact applyBinary_of_not_mem hf .nan y
    | some f => simp only [applyBinary, hf, hcarry.left name f hf hname y, Failure.settle_ok]

end Scope

/-- What stands between the part and the root hands `nan` on, one operator after the other. -/
theorem Tree.Exposed.eval_nan (h : Exposed scope isAnswer part t)
    (hcarry : scope.tables.CarryNaN) (hfree : scope.tables.FaultFree)
    (hpart : part.eval scope isAnswer = .ok .nan) : t.eval scope isAnswer = .ok .nan := by
  induction h with
  | whole => exact hpart
  | argument hname _ ih =>
    rw [eval, ih]
    exact (Scope.applyUnary_nan_iff hcarry).mpr hname
  | @left operator left right hpower _ ih =>
    obtain ⟨y, hy⟩ := right.exists_eval_eq_ok scope hfree isAnswer
    rw [eval, ih, hy]
    refine (Scope.applyBinary_nan_left_iff hcarry).mpr fun hname negative hzero => ?_
    exact hpower hname negative (by rw [hy, hzero])
  | @right operator left right _ ih =>
    obtain ⟨x, hx⟩ := left.exists_eval_eq_ok scope hfree isAnswer
    rw [eval, hx, ih]
    exact Scope.applyBinary_nan_right hcarry operator x

/-- A text that denotes a tree writes it. -/
theorem Dialect.writes_of_denotes (hs : scope.tables = .standard)
    (h : InOrder.Denotes .sum (InOrder.tokens text) t) : Dialect.inOrder.Writes scope text t :=
  ⟨t.postOrder, InOrder.reorderTokens_of_denotes h, h.fits scope hs, rfl⟩

/-- A text that writes a tree has the tree's value, unless it nests too deeply to have one. -/
theorem Dialect.Writes.value {dialect : Dialect} {x : Binary64} (h : dialect.Writes scope text t)
    (hfree : scope.tables.FaultFree) (hx : t.eval scope dialect.isAnswer = .ok x) :
    dialect.value scope text = .ok x ∨ dialect.value scope text = .error .undefined := by
  cases dialect with
  | preOrder tables =>
    obtain ⟨hfits, hwords⟩ := h
    show PreOrder.value scope (Text.words text) = _ ∨ PreOrder.value scope (Text.words text) = _
    rw [← hwords]
    by_cases hshallow : t.nesting < PreOrder.nestingLimit
    · exact .inl (PreOrder.value_preOrder hfits hshallow hx)
    · have hopen := PreOrder.opens_nesting hfits []
      rw [List.append_nil] at hopen
      have hdeep := PreOrder.not_reads_of_opens (hopen.of_le (not_lt.mp hshallow))
      exact .inr (PreOrder.value_of_not_reads hfree hdeep)
  | inOrder =>
    obtain ⟨_, hlisting, hfits, rfl⟩ := h
    show InOrder.value scope text = _ ∨ _
    have hvalue := PostOrder.value_postOrder hfits
    rw [InOrder.value_eq, hlisting]
    exact .inl (hvalue.trans (congrArg (Except.mapError Failure.fault) hx))
  | postOrder tables =>
    obtain ⟨hfits, hwords⟩ := h
    show PostOrder.value scope (Text.words text) = _ ∨ _
    have hvalue := PostOrder.value_postOrder hfits
    rw [← hwords]
    exact .inl (hvalue.trans (congrArg (Except.mapError Failure.fault) hx))

/-- With the standard operators, an expression has no number if one of its parts has none and is not
hidden by a rounding above it or as the base of a power to a zero. This is so in every notation and
angle unit, and the last answer has no number then either. -/
theorem Calculator.evaluate_of_exposed (c : Calculator) (hc : c.tables = .standard)
    (hwrites : c.dialect.Writes c.scope text t)
    (hexposed : part.Exposed c.scope c.dialect.isAnswer t)
    (hpart : part.eval c.scope c.dialect.isAnswer = .ok .nan) :
    t.eval c.scope c.dialect.isAnswer = .ok .nan ∧
      c.evaluate text = (.ok .nan, { c with lastAnswer := .nan }) := by
  have hs : c.scope.tables = .standard := hc
  have hfree : c.scope.tables.FaultFree := hs ▸ OperatorTables.standard_faultFree
  have hcarry : c.scope.tables.CarryNaN := hs ▸ OperatorTables.standard_carryNaN
  have hnan := hexposed.eval_nan hcarry hfree hpart
  refine ⟨hnan, evaluate_of_settle ?_⟩
  rcases hwrites.value hfree hnan with hvalue | hvalue
  · rw [hvalue, Failure.settle_ok]
  · rw [hvalue, Failure.settle_undefined]

/-- The failed answer is the base of a power, but not of one to a zero. -/
theorem Calculator.evaluate_of_exposed_answer :
    let c : Calculator := ⟨.inOrder, { angleUnit := .degrees }, .nan⟩
    let t : Tree := .binary "/" (.operand "1")
      (.unary "sin" (.binary "^" (.operand "ANS") (.operand "2")))
    c.tables = .standard ∧ c.dialect.Writes c.scope "1 / sin (ANS ^ 2)" t ∧
      Tree.Exposed c.scope c.dialect.isAnswer (.operand "ANS") t ∧
      Tree.eval c.scope c.dialect.isAnswer (.operand "ANS") = .ok .nan ∧
      t.eval c.scope c.dialect.isAnswer = .ok .nan ∧
      c.evaluate "1 / sin (ANS ^ 2)" = (.ok .nan, c) := by
  intro c t
  have hone : InOrder.Denotes .product ["1"] (.operand "1") :=
    .ofPower (.ofUnit (InOrder.Denotes.operand (by decide)).ofAtom)
  have hsquare : InOrder.Denotes .sum ["ANS", "^", "2"]
      (.binary "^" (.operand "ANS") (.operand "2")) :=
    .ofProduct (.ofPower (.power (InOrder.Denotes.operand (by decide)).ofAtom
      (.ofUnit (InOrder.Denotes.operand (by decide)).ofAtom)))
  have hsine : InOrder.Denotes .unit (["sin"] ++ ("(" :: ["ANS", "^", "2"] ++ [")"]) ++ [])
      (InOrder.wrap (["sin"] ++ []) (.binary "^" (.operand "ANS") (.operand "2"))) :=
    .wrapped (by decide) (.group hsquare)
  have hquotient : InOrder.Denotes .sum ["1", "/", "sin", "(", "ANS", "^", "2", ")"] t :=
    .ofProduct (.product (by decide) hone (.ofUnit hsine))
  have htokens : InOrder.tokens "1 / sin (ANS ^ 2)" =
      ["1", "/", "sin", "(", "ANS", "^", "2", ")"] := by decide
  rw [← htokens] at hquotient
  have hwrites : c.dialect.Writes c.scope "1 / sin (ANS ^ 2)" t :=
    Dialect.writes_of_denotes rfl hquotient
  have hexponent : ∀ negative,
      Tree.eval c.scope c.dialect.isAnswer (.operand "2") ≠ .ok (.zero negative) := by
    decide +kernel
  have hexposed : Tree.Exposed c.scope c.dialect.isAnswer (.operand "ANS") t :=
    .right (.argument (by decide) (.left (fun _ => hexponent) .whole))
  have hanswer : Tree.eval c.scope c.dialect.isAnswer (.operand "ANS") = .ok .nan := by
    decide +kernel
  obtain ⟨hvalue, hevaluate⟩ := c.evaluate_of_exposed rfl hwrites hexposed hanswer
  exact ⟨rfl, hwrites, hexposed, hanswer, hvalue, hevaluate⟩

end NotationCalculator
