import NotationCalculator.Notation.InOrder
import NotationCalculator.Notation.Polish
import NotationCalculator.Settings

/-!
# Calculators

A calculator reads expressions in one notation, with the operators that go with it, and holds the
last answer. Evaluation makes the answer the last one, `nan` included; only a fault leaves the
calculator as it was. Calculators of in-order notation have the standard operators once and for
all.
-/
namespace NotationCalculator

/-- A notation with its operators. -/
inductive Dialect where
  | preOrder (tables : OperatorTables)
  | inOrder
  | postOrder (tables : OperatorTables)

namespace Dialect

def tables : Dialect → OperatorTables
  | .preOrder tables => tables
  | .inOrder => .standard
  | .postOrder tables => tables

/-- The value of a text in a scope. -/
def value (dialect : Dialect) (scope : Scope) (text : String) : Except Failure Binary64 :=
  match dialect with
  | .preOrder _ => PreOrder.value scope (Text.words text)
  | .inOrder => InOrder.value scope text
  | .postOrder _ => PostOrder.value scope (Text.words text)

/-- The same notation with other operators, where it allows them. -/
def withTables? : Dialect → OperatorTables → Option Dialect
  | .preOrder _, tables => some (.preOrder tables)
  | .inOrder, _ => none
  | .postOrder _, tables => some (.postOrder tables)

end Dialect

structure Calculator where
  dialect : Dialect
  settings : Settings := {}
  lastAnswer : Binary64 := .nan

namespace Calculator

def tables (c : Calculator) : OperatorTables := c.dialect.tables

def scope (c : Calculator) : Scope := ⟨c.tables, c.settings.angleUnit, c.lastAnswer⟩

/-- The value of a text, which becomes the last answer. -/
def evaluate (c : Calculator) (text : String) : Except Fault Binary64 × Calculator :=
  match Failure.settle (c.dialect.value c.scope text) with
  | .ok x => (.ok x, { c with lastAnswer := x })
  | .error cause => (.error cause, c)

/-- The post-order text of an in-order one, for a calculator of that notation. -/
def reorder (c : Calculator) (text : String) : Option String :=
  match c.dialect with
  | .inOrder => InOrder.reorder text
  | _ => none

def setUnaryOperators (c : Calculator) (table : OperatorTable UnaryFunction) :
    Except Error Calculator :=
  match c.dialect.withTables? { c.tables with unary := table } with
  | some dialect => .ok { c with dialect }
  | none => .error .fixedUnaryOperators

def setBinaryOperators (c : Calculator) (table : OperatorTable BinaryFunction) :
    Except Error Calculator :=
  match c.dialect.withTables? { c.tables with binary := table } with
  | some dialect => .ok { c with dialect }
  | none => .error .fixedBinaryOperators

def setAngleUnit (c : Calculator) (name : String) : Except Error Calculator :=
  return { c with settings := ← c.settings.setAngleUnit name }

def setPrecision (c : Calculator) (places : Rat) : Except Error Calculator :=
  return { c with settings := ← c.settings.setPrecision places }

/-- An evaluation that settles changes the last answer and nothing else. -/
theorem evaluate_of_settle {c : Calculator} {text : String} {x : Binary64}
    (h : Failure.settle (c.dialect.value c.scope text) = .ok x) :
    c.evaluate text = (.ok x, { c with lastAnswer := x }) := by
  simp only [evaluate, h]

@[simp] theorem tables_inOrder (settings : Settings) (last : Binary64) :
    (⟨.inOrder, settings, last⟩ : Calculator).tables = .standard := rfl

end Calculator
end NotationCalculator
