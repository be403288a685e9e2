import NotationCalculator.Scope

/-!
# Notations without parentheses

In pre-order notation operators come before their operands, as in `* + 3 4 2`. An expression is
read from the front of the tokens: an operator reads its operands one after the other from what
follows it, the left one first, and the rest is handed on. A text has a value when one expression
takes up all of its tokens and its operators are nested less deeply than `nestingLimit`; calls that
are nested too deeply within an operator's function count as operators that are. The last answer is
named `ans`, in small letters.

In post-order notation operands come before their operators, as in `3 4 + 2 *`. A stack holds the
values of the expressions read so far, the latest on top: an operand is pushed, and an operator
replaces its operands by its value. A text has a value when every operator finds its operands and
exactly one value is left. The last answer is named in letters of either case.
-/
namespace NotationCalculator.PreOrder

def nestingLimit : Nat := 1000

def isAnswer (token : String) : Bool := token = "ans"

/-- The value of the expression at the front and the tokens after it. Operators may be nested less
deeply than the first number. -/
def readValue (scope : Scope) : Nat → List String → Except Failure (Binary64 × List String)
  | 0, _ => .error .undefined
  | _ + 1, [] => .error .undefined
  | nesting + 1, token :: tokens =>
    match scope.role isAnswer token with
    | .operand x => .ok (x, tokens)
    | .unary => do
      let (x, rest) ← readValue scope nesting tokens
      let value ← (scope.applyUnary token x).mapError .fault
      return (value, rest)
    | .binary => do
      let (x, rest) ← readValue scope nesting tokens
      let (y, rest) ← readValue scope nesting rest
      let value ← (scope.applyBinary token x y).mapError .fault
      return (value, rest)
    | .unknown => .error .undefined

/-- The value of the expression that takes up all of the tokens. -/
def readAll (scope : Scope) (tokens : List String) : Except Failure Binary64 := do
  match ← readValue scope nestingLimit tokens with
  | (x, []) => return x
  | (_, _ :: _) => .error .undefined

def value (scope : Scope) (tokens : List String) : Except Failure Binary64 :=
  (readAll scope tokens).mapError Failure.forgiveRecursion

@[simp] theorem readValue_nil (scope : Scope) (nesting : Nat) :
    readValue scope nesting [] = .error .undefined := by
  cases nesting <;> rfl

end NotationCalculator.PreOrder

namespace NotationCalculator.PostOrder

def isAnswer (token : String) : Bool := Text.lower token = "ans"

/-- The stack after one token. A name is first tried as an operator of one operand; where that
finds no operand, it is tried as one of two, whose right operand is on top of the left one. -/
def step (scope : Scope) (stack : List Binary64) (token : String) :
    Except Failure (List Binary64) :=
  match Numeral.parse? token with
  | some x => .ok (x :: stack)
  | none =>
    if isAnswer token then .ok (scope.lastAnswer :: stack)
    else
      match scope.tables.unary.contains token, scope.tables.binary.contains token, stack with
      | true, _, x :: stack => ((scope.applyUnary token x).mapError .fault).map (· :: stack)
      | _, true, y :: x :: stack =>
        ((scope.applyBinary token x y).mapError .fault).map (· :: stack)
      | _, _, _ => .error .undefined

/-- How many operands are there does not change what a token is: a name in both tables that finds
none for itself as an operator of one operand finds no two either. -/
theorem step_eq_of_role (scope : Scope) (stack : List Binary64) (token : String) :
    step scope stack token =
      match scope.role isAnswer token, stack with
      | .operand x, stack => .ok (x :: stack)
      | .unary, x :: stack => ((scope.applyUnary token x).mapError .fault).map (· :: stack)
      | .binary, y :: x :: stack =>
        ((scope.applyBinary token x y).mapError .fault).map (· :: stack)
      | _, _ => .error .undefined := by
  unfold step Scope.role
  cases Numeral.parse? token with
  | some x => rfl
  | none =>
    by_cases answer : isAnswer token
    · simp [answer]
    · cases hu : scope.tables.unary.contains token <;>
        cases hb : scope.tables.binary.contains token <;>
        simp only [answer, Bool.false_eq_true, if_false, if_true] <;>
        rcases stack with _ | ⟨y, _ | ⟨x, stack⟩⟩ <;> rfl

/-- The stack after a list of tokens. -/
def run (scope : Scope) (stack : List Binary64) (tokens : List String) :
    Except Failure (List Binary64) :=
  tokens.foldlM (step scope) stack

/-- The only value on a stack. -/
def single : List Binary64 → Except Failure Binary64
  | [x] => .ok x
  | _ => .error .undefined

def value (scope : Scope) (tokens : List String) : Except Failure Binary64 :=
  run scope [] tokens >>= single

@[simp] theorem run_nil (scope : Scope) (stack : List Binary64) :
    run scope stack [] = .ok stack := rfl

theorem run_append (scope : Scope) (stack : List Binary64) (tokens more : List String) :
    run scope stack (tokens ++ more) =
      run scope stack tokens >>= fun stack => run scope stack more :=
  List.foldlM_append

end NotationCalculator.PostOrder
