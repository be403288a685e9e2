import NotationCalculator.Proofs.Descent
import NotationCalculator.Proofs.InOrderReading
import NotationCalculator.Proofs.Rendering
import NotationCalculator.Session

/-!
# Agreement of the three notations

Three calculators with the standard operators, one for each notation, are taken through the same
turns. In a turn the angle unit or the precision is set, or an expression is evaluated that is
written for each of them in its notation. The settings and the last answer are all that they keep,
and each turn does the same to them in all three: what the trees of the expressions themselves say.
-/
namespace NotationCalculator

/-- The value of a tree with the standard operators, none of which has faults. -/
def Tree.standardValue (t : Tree) (unit : AngleUnit) (last : Binary64) : Binary64 :=
  match t.eval ⟨.standard, unit, last⟩ PreOrder.isAnswer with
  | .ok x => x
  | .error _ => .nan

/-- A tree that is not too deep and texts that write it in the three notations. In order it may be
written with any parentheses under which it is denoted. -/
structure Writing where
  tree : Tree
  preOrder : String
  inOrder : String
  postOrder : String
  standard : tree.IsStandard
  shallow : tree.nesting ≤ 600
  words_preOrder : Text.words preOrder = tree.preOrder
  denotes_inOrder : InOrder.Denotes .sum (InOrder.tokens inOrder) tree
  words_postOrder : Text.words postOrder = tree.postOrder

/-- Every tree of this kind can be written so, in order with all parentheses or with few. -/
def Writing.ofTree (t : Tree) (standard : t.IsStandard) (shallow : t.nesting ≤ 600)
    (every : Bool) : Writing where
  tree := t
  preOrder := " ".intercalate t.preOrder
  inOrder := " ".intercalate (InOrder.write every .sum t)
  postOrder := " ".intercalate t.postOrder
  standard := standard
  shallow := shallow
  words_preOrder := Text.words_intercalate fun token htoken =>
    (InOrder.isPlain_of_mem_postOrder standard token
      (t.preOrder_perm_postOrder.mem_iff.mp htoken)).1
  denotes_inOrder := by
    rw [InOrder.tokens_write standard every]
    exact InOrder.denotes_write standard every .sum
  words_postOrder := Text.words_intercalate fun token htoken =>
    (InOrder.isPlain_of_mem_postOrder standard token htoken).1

/-- The text for calculators of a notation. -/
def Writing.text (writing : Writing) : Dialect → String
  | .preOrder _ => writing.preOrder
  | .inOrder => writing.inOrder
  | .postOrder _ => writing.postOrder

inductive Turn where
  | setAngleUnit (name : String)
  | setPrecision (places : Rat)
  | evaluate (writing : Writing)

namespace Turn

/-- What a turn is for a calculator of a notation. -/
def operation (dialect : Dialect) : Turn → Operation
  | .setAngleUnit name => .setAngleUnit name
  | .setPrecision places => .setPrecision places
  | .evaluate writing => .evaluate (writing.text dialect)

/-- What comes of a change of settings. One that is refused leaves them as they were. -/
def changed (settings : Settings) (last : Binary64) :
    Except Error Settings → Except Error Answer × Settings × Binary64
  | .ok next => (.ok .done, next, last)
  | .error e => (.error e, settings, last)

/-- The answer to a turn, and the settings and the last answer after it, by the trees alone. -/
def outcome (settings : Settings) (last : Binary64) :
    Turn → Except Error Answer × Settings × Binary64
  | .setAngleUnit name => changed settings last (settings.setAngleUnit name)
  | .setPrecision places => changed settings last (settings.setPrecision places)
  | .evaluate writing =>
    let x := writing.tree.standardValue settings.angleUnit last
    (.ok (.value x), settings, x)

end Turn

/-- What is seen after an operation: its answer, the last answer, the text of the settings and how
each number would be printed. -/
structure View where
  answer : Except Error Answer
  lastAnswer : Binary64
  settings : Except Error String
  render : Binary64 → Except Error String

/-- What is seen of a calculator after each of the operations. -/
def Calculator.views (c : Calculator) : List Operation → List View
  | [] => []
  | operation :: operations =>
    let (answer, c) := c.perform operation
    ⟨answer, c.lastAnswer, c.settings.text, c.settings.render⟩ :: c.views operations

/-- What is to be seen after each of the turns, by the trees alone. -/
def Turn.views (settings : Settings) (last : Binary64) : List Turn → List View
  | [] => []
  | turn :: turns =>
    let (answer, settings, last) := turn.outcome settings last
    ⟨answer, last, settings.text, settings.render⟩ :: Turn.views settings last turns

variable {scope : Scope} {token : String} {t : Tree}

theorem exists_role_of_leaf (scope : Scope)
    (h : (Numeral.parse? token).isSome ∨ token = "ans") :
    ∃ x, scope.role PreOrder.isAnswer token = .operand x ∧
      scope.role PostOrder.isAnswer token = .operand x := by
  rcases h with hnumeral | rfl
  · obtain ⟨x, hx⟩ := Option.isSome_iff_exists.mp hnumeral
    exact ⟨x, by simp only [Scope.role, hx], by simp only [Scope.role, hx]⟩
  · have hparse : Numeral.parse? "ans" = none := by decide
    have hpre : PreOrder.isAnswer "ans" = true := by decide
    have hpost : PostOrder.isAnswer "ans" = true := by decide
    exact ⟨scope.lastAnswer, by simp [Scope.role, hparse, hpre],
      by simp [Scope.role, hparse, hpost]⟩

/-- The names of the standard operators are neither numerals nor that of the last answer. -/
theorem role_of_standard_unary (hs : scope.tables = .standard)
    (h : OperatorTables.standard.unary.contains token = true) :
    scope.role PreOrder.isAnswer token = .unary := by
  have hall : ∀ name ∈ OperatorTables.standard.unary.entries.map Prod.fst,
      Numeral.parse? name = none ∧ PreOrder.isAnswer name = false := by decide
  obtain ⟨hparse, hanswer⟩ := hall token ((OperatorTable.contains_eq_true_iff _ _).mp h)
  simp [Scope.role, hs, hparse, hanswer, h]

theorem role_of_standard_binary (hs : scope.tables = .standard)
    (h : OperatorTables.standard.binary.contains token = true) :
    scope.role PreOrder.isAnswer token = .binary := by
  have hall : ∀ name ∈ OperatorTables.standard.binary.entries.map Prod.fst,
      Numeral.parse? name = none ∧ PreOrder.isAnswer name = false ∧
        OperatorTables.standard.unary.contains name = false := by decide
  obtain ⟨hparse, hanswer, hunary⟩ := hall token ((OperatorTable.contains_eq_true_iff _ _).mp h)
  simp [Scope.role, hs, hparse, hanswer, hunary, h]

theorem Tree.IsStandard.fits (ht : t.IsStandard) (scope : Scope) (hs : scope.tables = .standard) :
    t.Fits scope PreOrder.isAnswer := by
  induction t with
  | operand token =>
    obtain ⟨x, hrole, -⟩ := exists_role_of_leaf scope ht
    exact ⟨x, hrole⟩
  | unary operator argument ih =>
    obtain ⟨hop, harg⟩ := ht
    exact ⟨role_of_standard_unary hs hop, ih harg⟩
  | binary operator left right ihLeft ihRight =>
    obtain ⟨hop, hleft, hright⟩ := ht
    exact ⟨role_of_standard_binary hs hop, ihLeft hleft, ihRight hright⟩

/-- Where the last answer is named in small letters, it does not matter whether capital ones would
name it too. -/
theorem Tree.IsStandard.eval_postOrder (ht : t.IsStandard) :
    t.eval scope PostOrder.isAnswer = t.eval scope PreOrder.isAnswer := by
  induction t with
  | operand token =>
    obtain ⟨x, hpre, hpost⟩ := exists_role_of_leaf scope ht
    simp only [Tree.eval, Tree.leafValue, hpre, hpost]
  | unary operator argument ih =>
    rw [Tree.eval, Tree.eval, ih ht.2]
  | binary operator left right ihLeft ihRight =>
    rw [Tree.eval, Tree.eval, ihLeft ht.2.1, ihRight ht.2.2]

theorem Tree.eval_eq_standardValue (t : Tree) (unit : AngleUnit) (last : Binary64) :
    t.eval ⟨.standard, unit, last⟩ PreOrder.isAnswer = .ok (t.standardValue unit last) := by
  obtain ⟨x, hx⟩ := Tree.exists_eval_eq_ok ⟨.standard, unit, last⟩
    OperatorTables.standard_faultFree PreOrder.isAnswer t
  rw [standardValue, hx]

/-- Each notation gives its text the value of the tree. -/
theorem Writing.value_text (writing : Writing) (dialect : Dialect) (unit : AngleUnit)
    (last : Binary64) :
    dialect.value ⟨.standard, unit, last⟩ (writing.text dialect) =
      .ok (writing.tree.standardValue unit last) := by
  have heval := writing.tree.eval_eq_standardValue unit last
  cases dialect with
  | preOrder tables =>
    have hlimit : 600 < PreOrder.nestingLimit := by decide
    show PreOrder.value _ (Text.words writing.preOrder) = _
    rw [writing.words_preOrder]
    exact PreOrder.value_preOrder (writing.standard.fits _ rfl) (writing.shallow.trans_lt hlimit)
      heval
  | inOrder =>
    show InOrder.value _ writing.inOrder = _
    rw [InOrder.value_of_denotes rfl writing.denotes_inOrder, writing.standard.eval_postOrder,
      heval]
    rfl
  | postOrder tables =>
    show PostOrder.value _ (Text.words writing.postOrder) = _
    rw [writing.words_postOrder, PostOrder.value_postOrder (writing.denotes_inOrder.fits _ rfl),
      writing.standard.eval_postOrder, heval]
    rfl

/-- A turn does to the settings and the last answer of a calculator what the trees say. -/
theorem Calculator.perform_operation {dialect : Dialect} (hd : dialect.tables = .standard)
    (settings : Settings) (last : Binary64) (turn : Turn) :
    (⟨dialect, settings, last⟩ : Calculator).perform (turn.operation dialect) =
      ((turn.outcome settings last).1,
        ⟨dialect, (turn.outcome settings last).2.1, (turn.outcome settings last).2.2⟩) := by
  cases turn with
  | setAngleUnit name =>
    simp only [Turn.operation, Turn.outcome, perform, change, setAngleUnit]
    cases settings.setAngleUnit name <;> rfl
  | setPrecision places =>
    simp only [Turn.operation, Turn.outcome, perform, change, setPrecision]
    cases settings.setPrecision places <;> rfl
  | evaluate writing =>
    have hscope : (⟨dialect, settings, last⟩ : Calculator).scope =
        ⟨.standard, settings.angleUnit, last⟩ := by
      rw [scope, tables, hd]
    have hvalue := writing.value_text dialect settings.angleUnit last
    rw [← hscope] at hvalue
    have hevaluate := evaluate_of_settle (c := ⟨dialect, settings, last⟩)
      (congrArg Failure.settle hvalue)
    simp only [Turn.operation, Turn.outcome, perform, hevaluate]
    rfl

theorem Calculator.views_operations {dialect : Dialect} (hd : dialect.tables = .standard)
    (settings : Settings) (last : Binary64) (turns : List Turn) :
    (⟨dialect, settings, last⟩ : Calculator).views (turns.map (Turn.operation dialect)) =
      Turn.views settings last turns := by
  induction turns generalizing settings last with
  | nil => rfl
  | cons turn turns ih =>
    simp only [List.map_cons, views, perform_operation hd, Turn.views, ih]

/-- Over any turns, calculators of the three notations that start afresh with the standard
operators have the same answers, last answers, settings and printed numbers after every turn, and
these are what the trees of the expressions say. -/
theorem Calculator.notations_agree (turns : List Turn) :
    let viewsIn (dialect : Dialect) := (⟨dialect, {}, .nan⟩ : Calculator).views
      (turns.map (Turn.operation dialect))
    viewsIn (.preOrder .standard) = viewsIn .inOrder ∧
    viewsIn .inOrder = viewsIn (.postOrder .standard) ∧
    viewsIn (.postOrder .standard) = Turn.views {} .nan turns := by
  intro viewsIn
  have hpre : viewsIn (.preOrder .standard) = Turn.views {} .nan turns :=
    views_operations rfl {} .nan turns
  have hin : viewsIn .inOrder = Turn.views {} .nan turns := views_operations rfl {} .nan turns
  have hpost : viewsIn (.postOrder .standard) = Turn.views {} .nan turns :=
    views_operations rfl {} .nan turns
  exact ⟨hpre.trans hin.symm, hin.trans hpost.symm, hpost⟩

end NotationCalculator
