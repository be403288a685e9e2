import NotationCalculator.Notation.Polish
import NotationCalculator.Text

/-!
# In-order notation

Operators of two operands stand between them and parentheses group, as in `( 3 + 4 ) * 2`; only
the standard operators are known. The tokens are brought into post-order: operands go straight to
the result, while operators wait until one that binds less strongly, or equally and to the left,
comes after them, or their parenthesis is closed. Operators of one operand bind most strongly and
may stand before or after it.

While reading, `due` tells whether an operand may come next. It may at the start and after an
operator of two operands; an opening parenthesis needs it as well. Whether each operator finds its
operands is left to the evaluation of the post-order tokens.
-/
namespace NotationCalculator.InOrder

open Text

inductive Kind where
  | operand
  | unary
  | binary
  | opening
  | closing
  | unknown
  deriving DecidableEq

def kind (token : String) : Kind :=
  if (Numeral.parse? token).isSome || PostOrder.isAnswer token then .operand
  else if OperatorTables.standard.unary.contains token then .unary
  else if OperatorTables.standard.binary.contains token then .binary
  else if token = "(" then .opening
  else if token = ")" then .closing
  else .unknown

/-- How strongly an operator binds its operands. -/
def strength (operator : String) : Nat :=
  if OperatorTables.standard.unary.contains operator then 4
  else if operator = "^" then 3
  else if operator ∈ ["*", "/", "%"] then 2
  else 1

/-- Whether equally strong operators are grouped from the left. -/
def groupsLeft (operator : String) : Bool := operator ∈ ["*", "/", "%", "+", "-"]

/-- Whether a waiting operator, or an open parenthesis, goes on waiting when `operator` comes. -/
def waits (operator waiting : String) : Bool :=
  waiting = "(" || strength waiting < strength operator ||
    strength waiting = strength operator && !groupsLeft operator

/-- The post-order listing of the operands and operators that are still to come or waiting, the
latest first. There is none if a token is out of place or a parenthesis has no partner. -/
def reorderFrom (waiting : List String) (due : Bool) : List String → Option (List String)
  | [] => if "(" ∈ waiting then none else some waiting
  | token :: tokens =>
    match kind token with
    | .operand => if due then (reorderFrom waiting false tokens).map (token :: ·) else none
    | .unary =>
      let (released, kept) := waiting.span fun other => !waits token other
      (reorderFrom (token :: kept) due tokens).map (released ++ ·)
    | .binary =>
      let (released, kept) := waiting.span fun other => !waits token other
      (reorderFrom (token :: kept) true tokens).map (released ++ ·)
    | .opening => if due then reorderFrom ("(" :: waiting) true tokens else none
    | .closing =>
      match waiting.span (· ≠ "(") with
      | (_, []) => none
      | (released, _ :: kept) => (reorderFrom kept due tokens).map (released ++ ·)
    | .unknown => none

def reorderTokens (tokens : List String) : Option (List String) := reorderFrom [] true tokens

/-- The characters with a space on either side of each parenthesis. -/
def padParentheses (cs : List Char) : List Char :=
  cs.flatMap fun c => if c = '(' || c = ')' then [' ', c, ' '] else [c]

/-- The tokens of a text, where a parenthesis is a token even if it touches others. -/
def tokens (text : String) : List String :=
  (splitWords (padParentheses text.toList)).map String.ofList

/-- The post-order text of an in-order one. -/
def reorder (text : String) : Option String :=
  (reorderTokens (tokens text)).map (" ".intercalate ·)

/-- The value of a text is that of its post-order text; where there is none, the empty text is read,
which has no value. -/
def value (scope : Scope) (text : String) : Except Failure Binary64 :=
  PostOrder.value scope (words ((reorder text).getD ""))

end NotationCalculator.InOrder
