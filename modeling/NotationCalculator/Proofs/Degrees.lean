import NotationCalculator.Proofs.Meaning

/-!
# Degrees as another table

The angle unit matters to the functions of twelve names alone. Working in degrees comes to working
in radians with other functions under these names: those that take an angle get it in radians first,
and those that give one have it made degrees at the end, whatever functions they are. This is so
under every operator of an expression, so it is so of whole texts in every notation.
-/
namespace NotationCalculator

open Operator

/-- The names that have to do with angles. -/
def Operator.angleNames : List String := trigonometricNames ++ inverseTrigonometricNames

/-- The function that does in radians what `f` does in degrees under this name. -/
def Operator.convertDegrees (name : String) (f : UnaryFunction) : UnaryFunction :=
  if name ∈ trigonometricNames then
    fun x => f (x.mul (AngleUnit.halfTurn.div AngleUnit.straight))
  else if name ∈ inverseTrigonometricNames then
    fun x => (f x).map fun y => y.mul (AngleUnit.straight.div AngleUnit.halfTurn)
  else f

/-- The tables with which one works in radians as with these in degrees. -/
def OperatorTables.convertDegrees (tables : OperatorTables) : OperatorTables :=
  { tables with unary := tables.unary.mapFunctions Operator.convertDegrees }

/-- What comes of an evaluation: its value or fault, and the last answer after it. -/
def Calculator.outcome (c : Calculator) (text : String) : Except Fault Binary64 × Binary64 :=
  ((c.evaluate text).1, (c.evaluate text).2.lastAnswer)

variable {name token text : String} {last : Binary64} {tables : OperatorTables}

namespace Scope

@[simp] theorem operandIn_radians (name : String) (x : Binary64) :
    operandIn .radians name x = x := by
  simp [operandIn]

@[simp] theorem resultIn_radians (name : String) : resultIn .radians name = id := by
  funext x
  simp [resultIn]

/-- No name is that of a function of an angle and of one that gives an angle. -/
theorem not_mem_inverse_of_mem (h : name ∈ trigonometricNames) :
    name ∉ inverseTrigonometricNames := by
  have hall : ∀ name ∈ trigonometricNames, name ∉ inverseTrigonometricNames := by decide
  exact hall name h

/-- What happens to an angle on its way into a function and out of it. -/
theorem convertDegrees_apply (name : String) (f : UnaryFunction) (x : Binary64) :
    convertDegrees name f x =
      (f (operandIn .degrees name x)).map (resultIn .degrees name) := by
  by_cases htrig : name ∈ trigonometricNames
  · have hresult := resultIn_of_not_mem (not_mem_inverse_of_mem htrig) .degrees
    rw [convertDegrees, if_pos htrig, hresult, Except.map_id, operandIn, if_pos htrig]
    rfl
  · rw [convertDegrees, if_neg htrig, operandIn_of_not_mem htrig]
    by_cases hinverse : name ∈ inverseTrigonometricNames
    · have hresult : resultIn .degrees name =
          fun y => y.mul (AngleUnit.straight.div AngleUnit.halfTurn) :=
        funext fun _ => if_pos hinverse
      rw [if_pos hinverse, hresult]
    · rw [if_neg hinverse, resultIn_of_not_mem hinverse, Except.map_id]
      rfl

theorem applyUnary_convertDegrees (tables : OperatorTables) (last : Binary64) (name : String)
    (x : Binary64) :
    (⟨tables, .degrees, last⟩ : Scope).applyUnary name x =
      (⟨tables.convertDegrees, .radians, last⟩ : Scope).applyUnary name x := by
  simp only [applyUnary, OperatorTables.convertDegrees, OperatorTable.find?_mapFunctions]
  cases tables.unary.find? name with
  | none => rfl
  | some f =>
    simp only [Option.map_some, convertDegrees_apply, operandIn_radians, resultIn_radians,
      Except.map_id]
    rfl

/-- The converted tables have the same names, so all tokens keep their roles. -/
theorem agreeAt_convertDegrees (tables : OperatorTables) (last : Binary64) (token : String) :
    AgreeAt ⟨tables, .degrees, last⟩ ⟨tables.convertDegrees, .radians, last⟩ token where
  role isAnswer := by
    have hnames : tables.convertDegrees.unary.contains token = tables.unary.contains token := by
      simp [OperatorTables.convertDegrees, OperatorTable.contains]
    simp only [role, hnames]
    rfl
  unary := applyUnary_convertDegrees tables last token
  binary _ _ := rfl

theorem agreeAt_of_not_mem (h : token ∉ angleNames) (tables : OperatorTables) (unit : AngleUnit)
    (last : Binary64) : AgreeAt ⟨tables, unit, last⟩ ⟨tables, .radians, last⟩ token where
  role _ := rfl
  unary x := by
    rw [angleNames, List.mem_append, not_or] at h
    simp only [applyUnary, operandIn_of_not_mem h.1, resultIn_of_not_mem h.2]
  binary _ _ := rfl

end Scope

namespace Calculator

theorem outcome_congr {c d : Calculator} {text' : String} (hlast : c.lastAnswer = d.lastAnswer)
    (hvalue : c.dialect.value c.scope text = d.dialect.value d.scope text') :
    c.outcome text = d.outcome text' := by
  simp only [outcome, evaluate, hvalue]
  cases Failure.settle (d.dialect.value d.scope text') with
  | ok x => rfl
  | error cause => exact congrArg (Except.error cause, ·) hlast

/-- In degrees a text has the outcome that it has in radians with the converted tables. An in-order
text has that of its post-order text, and is undefined where there is none. Without a name that has
to do with angles in it, a text has the same outcome in both units. -/
theorem outcome_degrees (tables : OperatorTables) (precision : ℕ) (last : Binary64)
    (text : String) :
    let degrees : Settings := ⟨.degrees, precision⟩
    let radians : Settings := ⟨.radians, precision⟩
    outcome ⟨.preOrder tables, degrees, last⟩ text =
      outcome ⟨.preOrder tables.convertDegrees, radians, last⟩ text ∧
    outcome ⟨.postOrder tables, degrees, last⟩ text =
      outcome ⟨.postOrder tables.convertDegrees, radians, last⟩ text ∧
    (∀ translation, reorder ⟨.inOrder, degrees, last⟩ text = some translation →
      outcome ⟨.inOrder, degrees, last⟩ text =
        outcome ⟨.postOrder OperatorTables.standard.convertDegrees, radians, last⟩ translation) ∧
    (reorder ⟨.inOrder, degrees, last⟩ text = none →
      outcome ⟨.inOrder, degrees, last⟩ text = (.ok .nan, .nan)) ∧
    ∀ dialect : Dialect, (∀ token ∈ dialect.tokens text, token ∉ angleNames) →
      outcome ⟨dialect, degrees, last⟩ text = outcome ⟨dialect, radians, last⟩ text := by
  intro degrees radians
  have hconvert (tables : OperatorTables) : ∀ token,
      (⟨tables, .degrees, last⟩ : Scope).AgreeAt ⟨tables.convertDegrees, .radians, last⟩ token :=
    Scope.agreeAt_convertDegrees tables last
  refine ⟨?_, ?_, ?_, ?_, ?_⟩
  · exact outcome_congr rfl (PreOrder.value_congr fun token _ => hconvert tables token)
  · exact outcome_congr rfl (PostOrder.value_congr fun token _ => hconvert tables token)
  · intro translation htranslation
    have htext : InOrder.reorder text = some translation := htranslation
    have hvalue : InOrder.value ⟨.standard, .degrees, last⟩ text =
        PostOrder.value ⟨.standard, .degrees, last⟩ (Text.words translation) := by
      rw [InOrder.value, htext, Option.getD_some]
    exact outcome_congr rfl
      (hvalue.trans (PostOrder.value_congr fun token _ => hconvert .standard token))
  · intro hnone
    have htext : InOrder.reorder text = none := hnone
    have hvalue : InOrder.value ⟨.standard, .degrees, last⟩ text = .error .undefined := by
      rw [InOrder.value, htext]
      rfl
    have hevaluate := evaluate_of_settle (c := ⟨.inOrder, degrees, last⟩)
      (congrArg Failure.settle hvalue)
    rw [outcome, hevaluate]
  · intro dialect hnames
    exact outcome_congr rfl (Dialect.value_congr fun token htoken =>
      Scope.agreeAt_of_not_mem (hnames token htoken) dialect.tables .degrees last)

/-- A sine and an inverse one, a text without a post-order text, and one without angles. -/
theorem outcome_degrees_of_sine :
    let degrees : Settings := ⟨.degrees, 2⟩
    let radians : Settings := ⟨.radians, 2⟩
    let last : Binary64 := .ofInt 30
    (reorder ⟨.inOrder, degrees, last⟩ "sin(ans) + asin 1" = some "ans sin 1 asin +" ∧
      outcome ⟨.inOrder, degrees, last⟩ "sin(ans) + asin 1" =
        outcome ⟨.postOrder OperatorTables.standard.convertDegrees, radians, last⟩
          "ans sin 1 asin +") ∧
    (reorder ⟨.inOrder, degrees, last⟩ "sin(ans" = none ∧
      outcome ⟨.inOrder, degrees, last⟩ "sin(ans" = (.ok .nan, .nan)) ∧
    (∀ token ∈ Dialect.inOrder.tokens "~(ans / 7)!", token ∉ angleNames) ∧
      outcome ⟨.inOrder, degrees, last⟩ "~(ans / 7)!" =
        outcome ⟨.inOrder, radians, last⟩ "~(ans / 7)!" := by
  intro degrees radians last
  have htranslation : reorder ⟨.inOrder, degrees, last⟩ "sin(ans) + asin 1" =
      some "ans sin 1 asin +" := by decide
  have hnone : reorder ⟨.inOrder, degrees, last⟩ "sin(ans" = none := by decide
  have hnames : ∀ token ∈ Dialect.inOrder.tokens "~(ans / 7)!", token ∉ angleNames := by decide
  obtain ⟨-, -, hsine, -⟩ := outcome_degrees .standard 2 last "sin(ans) + asin 1"
  obtain ⟨-, -, -, hopen, -⟩ := outcome_degrees .standard 2 last "sin(ans"
  obtain ⟨-, -, -, -, hsame⟩ := outcome_degrees .standard 2 last "~(ans / 7)!"
  exact ⟨⟨htranslation, hsine _ htranslation⟩, ⟨hnone, hopen hnone⟩, hnames,
    hsame .inOrder hnames⟩

end Calculator
end NotationCalculator
