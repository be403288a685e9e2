import NotationCalculator.Notation.InOrder

/-!
# Expression trees

The expressions that the three notations write: tokens as leaves, and operators of one or two
operands above them. A tree has a listing in pre-order and one in post-order. Its value comes from
the values of its operands, the left one first. A tree is read in a scope only when each of its
tokens has the role of its place.
-/
namespace NotationCalculator

inductive Tree where
  | operand (token : String)
  | unary (operator : String) (argument : Tree)
  | binary (operator : String) (left right : Tree)
  deriving DecidableEq

namespace Tree

/-- The tokens with each operator in front of its operands. -/
def preOrder : Tree → List String
  | .operand token => [token]
  | .unary operator argument => operator :: argument.preOrder
  | .binary operator left right => operator :: (left.preOrder ++ right.preOrder)

/-- The tokens with each operator behind its operands. -/
def postOrder : Tree → List String
  | .operand token => [token]
  | .unary operator argument => argument.postOrder ++ [operator]
  | .binary operator left right => left.postOrder ++ right.postOrder ++ [operator]

/-- The greatest number of operators above a leaf. -/
def nesting : Tree → Nat
  | .operand _ => 0
  | .unary _ argument => argument.nesting + 1
  | .binary _ left right => max left.nesting right.nesting + 1

/-- Every token has the role of its place in the tree. -/
def Fits (scope : Scope) (isAnswer : String → Bool) : Tree → Prop
  | .operand token => ∃ x, scope.role isAnswer token = .operand x
  | .unary operator argument => scope.role isAnswer operator = .unary ∧ argument.Fits scope isAnswer
  | .binary operator left right =>
    scope.role isAnswer operator = .binary ∧ left.Fits scope isAnswer ∧ right.Fits scope isAnswer

/-- The value of a leaf; a token that is not an operand has none. -/
def leafValue (scope : Scope) (isAnswer : String → Bool) (token : String) : Binary64 :=
  match scope.role isAnswer token with
  | .operand x => x
  | _ => .nan

/-- The value of a tree, or the first fault of one of its operators. -/
def eval (scope : Scope) (isAnswer : String → Bool) : Tree → Except Fault Binary64
  | .operand token => .ok (leafValue scope isAnswer token)
  | .unary operator argument => do
    let x ← argument.eval scope isAnswer
    scope.applyUnary operator x
  | .binary operator left right => do
    let x ← left.eval scope isAnswer
    let y ← right.eval scope isAnswer
    scope.applyBinary operator x y

@[simp] theorem preOrder_ne_nil (t : Tree) : t.preOrder ≠ [] := by
  cases t <;> simp [preOrder]

@[simp] theorem postOrder_ne_nil (t : Tree) : t.postOrder ≠ [] := by
  cases t <;> simp [postOrder]

/-- The two listings have the same tokens. -/
theorem preOrder_perm_postOrder (t : Tree) : t.preOrder.Perm t.postOrder := by
  induction t with
  | operand token => exact .refl _
  | unary operator argument ih =>
    simp only [preOrder, postOrder]
    exact (ih.cons operator).trans (List.perm_append_singleton operator argument.postOrder).symm
  | binary operator left right ihLeft ihRight =>
    simp only [preOrder, postOrder]
    exact ((ihLeft.append ihRight).cons operator).trans (List.perm_append_singleton operator _).symm

end Tree

/-!
## Reading the listing of a tree

A listing of a tree whose tokens have their roles is read as the tree's value, whatever is on the
stack already or comes after it.
-/

theorem PostOrder.run_postOrder {scope : Scope} {t : Tree} (fits : t.Fits scope isAnswer)
    (stack : List Binary64) :
    run scope stack t.postOrder =
      ((t.eval scope isAnswer).mapError .fault).map (· :: stack) := by
  induction t generalizing stack with
  | operand token =>
    obtain ⟨x, role⟩ := fits
    simp only [Tree.postOrder, run, List.foldlM_cons, step_eq_of_role, role, Tree.eval,
      Tree.leafValue]
    rfl
  | unary operator argument ih =>
    obtain ⟨role, fits⟩ := fits
    simp only [Tree.postOrder, run_append, ih fits, Tree.eval]
    cases argument.eval scope isAnswer with
    | error cause => rfl
    | ok x =>
      simp only [Failure.mapError_ok, Except.map, bind, Except.bind, run,
        List.foldlM_cons, step_eq_of_role, role]
      cases scope.applyUnary operator x <;> rfl
  | binary operator left right ihLeft ihRight =>
    obtain ⟨role, fitsLeft, fitsRight⟩ := fits
    simp only [Tree.postOrder, run_append, ihLeft fitsLeft, Tree.eval]
    cases left.eval scope isAnswer with
    | error cause => rfl
    | ok x =>
      simp only [Failure.mapError_ok, Except.map, bind, Except.bind, ihRight fitsRight]
      cases right.eval scope isAnswer with
      | error cause => rfl
      | ok y =>
        simp only [Failure.mapError_ok, run, List.foldlM_cons, step_eq_of_role, role]
        cases scope.applyBinary operator x y <;> rfl

theorem PreOrder.readValue_preOrder {scope : Scope} {t : Tree} (fits : t.Fits scope isAnswer)
    {limit : Nat} (shallow : t.nesting < limit) (rest : List String) :
    readValue scope limit (t.preOrder ++ rest) =
      ((t.eval scope isAnswer).mapError .fault).map (·, rest) := by
  induction t generalizing limit rest with
  | operand token =>
    obtain ⟨x, role⟩ := fits
    obtain _ | limit := limit
    · simp at shallow
    · simp only [Tree.preOrder, List.cons_append, readValue, role, Tree.eval, Tree.leafValue]
      rfl
  | unary operator argument ih =>
    obtain ⟨role, fits⟩ := fits
    obtain _ | limit := limit
    · simp at shallow
    · have inner : argument.nesting < limit := by simp only [Tree.nesting] at shallow; omega
      simp only [Tree.preOrder, List.cons_append, readValue, role, ih fits inner, Tree.eval]
      cases argument.eval scope isAnswer with
      | error cause => rfl
      | ok x =>
        simp only [Failure.mapError_ok, Except.map, bind, Except.bind]
        cases scope.applyUnary operator x <;> rfl
  | binary operator left right ihLeft ihRight =>
    obtain ⟨role, fitsLeft, fitsRight⟩ := fits
    obtain _ | limit := limit
    · simp at shallow
    · have innerLeft : left.nesting < limit := by simp only [Tree.nesting] at shallow; omega
      have innerRight : right.nesting < limit := by simp only [Tree.nesting] at shallow; omega
      simp only [Tree.preOrder, List.cons_append, List.append_assoc, readValue, role,
        ihLeft fitsLeft innerLeft, Tree.eval]
      cases left.eval scope isAnswer with
      | error cause => rfl
      | ok x =>
        simp only [Failure.mapError_ok, Except.map, bind, Except.bind,
          ihRight fitsRight innerRight]
        cases right.eval scope isAnswer with
        | error cause => rfl
        | ok y => cases scope.applyBinary operator x y <;> rfl

/-!
## The grammar of in-order notation

Which lists of tokens are in-order expressions, and which trees they denote. Sums and products are
grouped from the left, powers from the right, and operators of one operand apply before any of
two. Operators of one operand on either side of an atom apply from the right to the left: first
the last of those behind it, and the first of those in front of it last. Parentheses group and
leave no trace in the tree.
-/

namespace InOrder

/-- The kinds of phrases, from the one that binds its parts least to the one that has no parts
outside. -/
inductive Phrase where
  | sum
  | product
  | power
  | unit
  | atom
  deriving DecidableEq

/-- The tree with operators of one operand around it, the first of them outermost. -/
def wrap (operators : List String) (tree : Tree) : Tree := operators.foldr .unary tree

inductive Denotes : Phrase → List String → Tree → Prop where
  | operand {token : String} : kind token = .operand → Denotes .atom [token] (.operand token)
  | group {tokens : List String} {tree : Tree} :
      Denotes .sum tokens tree → Denotes .atom ("(" :: tokens ++ [")"]) tree
  | wrapped {before after tokens : List String} {tree : Tree} :
      (∀ operator ∈ before ++ after, kind operator = .unary) → Denotes .atom tokens tree →
      Denotes .unit (before ++ tokens ++ after) (wrap (before ++ after) tree)
  | ofUnit {tokens : List String} {tree : Tree} :
      Denotes .unit tokens tree → Denotes .power tokens tree
  | power {left right : List String} {x y : Tree} :
      Denotes .unit left x → Denotes .power right y →
      Denotes .power (left ++ "^" :: right) (.binary "^" x y)
  | ofPower {tokens : List String} {tree : Tree} :
      Denotes .power tokens tree → Denotes .product tokens tree
  | product {left right : List String} {x y : Tree} {operator : String} :
      operator ∈ ["*", "/", "%"] → Denotes .product left x → Denotes .power right y →
      Denotes .product (left ++ operator :: right) (.binary operator x y)
  | ofProduct {tokens : List String} {tree : Tree} :
      Denotes .product tokens tree → Denotes .sum tokens tree
  | sum {left right : List String} {x y : Tree} {operator : String} :
      operator ∈ ["+", "-"] → Denotes .sum left x → Denotes .product right y →
      Denotes .sum (left ++ operator :: right) (.binary operator x y)

theorem Denotes.ofAtom {tokens : List String} {tree : Tree} (h : Denotes .atom tokens tree) :
    Denotes .unit tokens tree := by
  have hunit : Denotes .unit ([] ++ tokens ++ []) (wrap ([] ++ []) tree) := .wrapped (by simp) h
  rwa [List.append_nil, List.nil_append] at hunit

end InOrder

end NotationCalculator
