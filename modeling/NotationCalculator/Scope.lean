import NotationCalculator.AngleUnit
import NotationCalculator.Numeral
import NotationCalculator.Operator

/-!
# Scopes

A scope is what the tokens of an expression mean: the operators, the angle unit and the last
answer. An operator with the name of a trigonometric function takes its operand in the angle unit,
and one with the name of an inverse gives its result in it, whatever function the table has under
that name.

A token is an operand if it is a numeral or names the last answer, otherwise an operator of one
operand if it is in that table, otherwise one of two operands.
-/
namespace NotationCalculator

structure Scope where
  tables : OperatorTables
  angleUnit : AngleUnit
  lastAnswer : Binary64

inductive Role where
  | operand (value : Binary64)
  | unary
  | binary
  | unknown
  deriving DecidableEq

namespace Scope

open Operator

/-- The angle that an operator of this name takes, in radians. -/
def operandIn (unit : AngleUnit) (name : String) (x : Binary64) : Binary64 :=
  if name ∈ trigonometricNames then unit.toRadians x else x

/-- The angle that an operator of this name gives, in the angle unit. -/
def resultIn (unit : AngleUnit) (name : String) (x : Binary64) : Binary64 :=
  if name ∈ inverseTrigonometricNames then unit.fromRadians x else x

/-- The value of an operator of one operand; a name that is not in the table gives `nan`. -/
def applyUnary (scope : Scope) (name : String) (x : Binary64) : Except Fault Binary64 :=
  match scope.tables.unary.find? name with
  | none => .ok .nan
  | some f =>
    Failure.settle ((f (operandIn scope.angleUnit name x)).map (resultIn scope.angleUnit name))

/-- The value of an operator of two operands, in this order. -/
def applyBinary (scope : Scope) (name : String) (x y : Binary64) : Except Fault Binary64 :=
  match scope.tables.binary.find? name with
  | none => .ok .nan
  | some f => Failure.settle (f x y)

/-- The role of a token, where `isAnswer` tells which tokens name the last answer. -/
def role (scope : Scope) (isAnswer : String → Bool) (token : String) : Role :=
  match Numeral.parse? token with
  | some x => .operand x
  | none =>
    if isAnswer token then .operand scope.lastAnswer
    else if scope.tables.unary.contains token then .unary
    else if scope.tables.binary.contains token then .binary
    else .unknown

@[simp] theorem operandIn_nan (unit : AngleUnit) (name : String) :
    operandIn unit name .nan = .nan := by
  unfold operandIn
  split <;> simp

@[simp] theorem resultIn_nan (unit : AngleUnit) (name : String) :
    resultIn unit name .nan = .nan := by
  unfold resultIn
  split <;> simp

theorem operandIn_of_not_mem {name : String} (h : name ∉ trigonometricNames) (unit : AngleUnit)
    (x : Binary64) : operandIn unit name x = x := if_neg h

theorem resultIn_of_not_mem {name : String} (h : name ∉ inverseTrigonometricNames)
    (unit : AngleUnit) : resultIn unit name = id := funext fun _ => if_neg h

theorem applyUnary_of_not_mem {scope : Scope} {name : String}
    (h : scope.tables.unary.find? name = none) (x : Binary64) :
    scope.applyUnary name x = .ok .nan := by
  simp [applyUnary, h]

theorem applyBinary_of_not_mem {scope : Scope} {name : String}
    (h : scope.tables.binary.find? name = none) (x y : Binary64) :
    scope.applyBinary name x y = .ok .nan := by
  simp [applyBinary, h]

end Scope
end NotationCalculator
