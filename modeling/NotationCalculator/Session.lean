import NotationCalculator.Calculator

/-!
# Sessions

A session is a sequence of operations on one calculator. Each operation has an answer or an error,
and leaves a calculator for the next one. An operation that ends in an error leaves the calculator
as it was.
-/
namespace NotationCalculator

inductive Operation where
  | evaluate (text : String)
  | reorder (text : String)
  | setAngleUnit (name : String)
  | setPrecision (places : Rat)
  | setUnaryOperators (table : OperatorTable UnaryFunction)
  | setBinaryOperators (table : OperatorTable BinaryFunction)
  | applyUnary (name : String) (x : Binary64)
  | applyBinary (name : String) (x y : Binary64)
  | render (x : Binary64)
  | settings
  | operatorNames

inductive Answer where
  | value (x : Binary64)
  | reordering (text : Option String)
  /-- A change that was asked for has been made. -/
  | done
  | text (text : String)
  | names (unary binary : List String)
  deriving DecidableEq

namespace Calculator

def change (c : Calculator) (changed : Except Error Calculator) :
    Except Error Answer × Calculator :=
  match changed with
  | .ok c => (.ok .done, c)
  | .error e => (.error e, c)

def perform (c : Calculator) : Operation → Except Error Answer × Calculator
  | .evaluate text =>
    let (result, c) := c.evaluate text
    ((result.map .value).mapError .fault, c)
  | .reorder text => (.ok (.reordering (c.reorder text)), c)
  | .setAngleUnit name => c.change (c.setAngleUnit name)
  | .setPrecision places => c.change (c.setPrecision places)
  | .setUnaryOperators table => c.change (c.setUnaryOperators table)
  | .setBinaryOperators table => c.change (c.setBinaryOperators table)
  | .applyUnary name x => (((c.scope.applyUnary name x).map .value).mapError .fault, c)
  | .applyBinary name x y => (((c.scope.applyBinary name x y).map .value).mapError .fault, c)
  | .render x => ((c.settings.render x).map .text, c)
  | .settings => (c.settings.text.map .text, c)
  | .operatorNames => (.ok (.names c.tables.unary.names c.tables.binary.names), c)

/-- The calculator after a sequence of operations. -/
def after (c : Calculator) (operations : List Operation) : Calculator :=
  operations.foldl (fun c operation => (c.perform operation).2) c

@[simp] theorem after_nil (c : Calculator) : c.after [] = c := rfl

@[simp] theorem after_cons (c : Calculator) (operation : Operation) (operations : List Operation) :
    c.after (operation :: operations) = (c.perform operation).2.after operations := rfl

end Calculator
end NotationCalculator
