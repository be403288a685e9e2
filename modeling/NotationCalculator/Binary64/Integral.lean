import NotationCalculator.Binary64.Arithmetic

/-!
# Rounding to an integer, and the factorial

`roundHalfUp` rounds to the nearest integer, halves upwards, and keeps the result within the range
of signed 64-bit integers; what is not a number becomes zero. `factorial` multiplies in a signed
64-bit word that wraps around, from the argument downwards, and stops once the product is zero,
since it stays so. The product and the number of multiplications are produced together.
-/
namespace NotationCalculator.Binary64

/-- The bound `2 ^ 63` of 64-bit results, or its negation. -/
def wordBound (negative : Bool) : Binary64 := ofUnits negative (Nat.pow 2 63 * unitsPerOne) 1

/-- The argument, or the nearer bound when it lies beyond one. -/
def clampToWord (x : Binary64) : Binary64 :=
  if lt x (wordBound true) then wordBound true
  else if lt (wordBound false) x then wordBound false
  else x

def roundHalfUp (x : Binary64) : Binary64 :=
  if x.isNaN then zero false
  else
    let below := floor x
    clampToWord (if le half (sub x below) then add below one else below)

/-- A product in 64-bit arithmetic with the number of multiplications that were made for it. -/
structure CountedProduct where
  value : BitVec 64
  multiplications : Nat
  deriving DecidableEq

/-- The product of `acc` and the numbers from `n` down to two. -/
def fallingProduct : Nat → BitVec 64 → CountedProduct
  | 0, acc => ⟨acc, 0⟩
  | 1, acc => ⟨acc, 0⟩
  | n + 2, acc =>
    let next := acc * BitVec.ofNat 64 (n + 2)
    if next = 0 then ⟨0, 1⟩
    else
      let rest := fallingProduct (n + 1) next
      ⟨rest.value, rest.multiplications + 1⟩

/-- The natural number that a double is equal to. -/
def toNat? : Binary64 → Option Nat
  | .finite negative rank =>
    if units rank % unitsPerOne = 0 ∧ (negative → rank.val = 0) then
      some (units rank / unitsPerOne)
    else none
  | _ => none

/-- The largest argument of the factorial, the largest signed 32-bit integer. -/
def factorialBound : Nat := Nat.pow 2 31 - 1

def factorial (x : Binary64) : Binary64 :=
  match x.toNat? with
  | some n => if n ≤ factorialBound then ofInt (fallingProduct n 1).value.toInt else .nan
  | none => .nan

@[simp] theorem factorial_nan : factorial .nan = .nan := rfl

@[simp] theorem roundHalfUp_nan : roundHalfUp .nan = zero false := rfl

end NotationCalculator.Binary64
