/-!
# Doubles

A finite double is a sign and a rank: its place among the finite magnitudes in increasing order,
from zero at rank `0` to the largest one at rank `rankCount - 1`. The rank is also the number
whose binary digits are the exponent and fraction fields of the interchange format. There is one
value that is not a number, so equality of doubles is equality of what can be observed of them.

Every finite magnitude is a whole number of `units`, each the least positive double, `2 ^
(-1074)`. Exact results of arithmetic are therefore quotients of natural numbers.
-/
namespace NotationCalculator

-- Here and wherever doubles are computed, powers are `Nat.pow`, as the meaning of `^` depends on
-- which libraries are at hand.

/-- How many finite magnitudes there are: 2047 binades of `2 ^ 52` each, the first of them twice
as wide. -/
abbrev rankCount : Nat := 2047 * Nat.pow 2 52

inductive Binary64 where
  | nan
  | infinite (negative : Bool)
  | finite (negative : Bool) (rank : Fin rankCount)
  deriving DecidableEq, Inhabited

namespace Binary64

/-- The least positive double is `1 / unitsPerOne`. -/
def unitsPerOne : Nat := Nat.pow 2 1074

/-- The distance from a magnitude to the next larger one is `2 ^ ulpExponent` units. -/
def ulpExponent (rank : Nat) : Nat := rank / Nat.pow 2 52 - 1

def significand (rank : Nat) : Nat := rank - ulpExponent rank * Nat.pow 2 52

/-- The magnitude of a rank, in units. -/
def units (rank : Nat) : Nat := significand rank * Nat.pow 2 (ulpExponent rank)

@[simp] theorem units_zero : units 0 = 0 := by simp [units, significand]

/-- The finite magnitude of a rank, or infinity when the rank is past the last of them. -/
def ofRank (negative : Bool) (rank : Nat) : Binary64 :=
  if h : rank < rankCount then .finite negative ⟨rank, h⟩ else .infinite negative

def zero (negative : Bool) : Binary64 := ofRank negative 0

/-- The double whose sign bit is the top one of `bits` and whose magnitude has the other 63. -/
def ofBits (bits : Nat) : Binary64 :=
  if bits % Nat.pow 2 63 ≤ rankCount then
    ofRank (bits / Nat.pow 2 63 % 2 = 1) (bits % Nat.pow 2 63)
  else .nan

/-- The fields of the interchange format as one number; that of `nan` is the usual quiet one. -/
def bits : Binary64 → Nat
  | .nan => rankCount + Nat.pow 2 51
  | .infinite negative => (if negative then Nat.pow 2 63 else 0) + rankCount
  | .finite negative rank => (if negative then Nat.pow 2 63 else 0) + rank

def isNaN : Binary64 → Bool
  | .nan => true
  | _ => false

def isInfinite : Binary64 → Bool
  | .infinite _ => true
  | _ => false

def neg : Binary64 → Binary64
  | .nan => .nan
  | .infinite negative => .infinite !negative
  | .finite negative rank => .finite (!negative) rank

def abs : Binary64 → Binary64
  | .nan => .nan
  | .infinite _ => .infinite false
  | .finite _ rank => .finite false rank

theorem isNaN_iff {x : Binary64} : x.isNaN = true ↔ x = .nan := by
  cases x <;> simp [isNaN]

theorem ofRank_ne_nan (negative : Bool) (rank : Nat) : ofRank negative rank ≠ .nan := by
  unfold ofRank
  split <;> simp

theorem zero_eq (negative : Bool) : zero negative = .finite negative ⟨0, by decide⟩ := by
  rw [zero, ofRank, dif_pos (by decide)]

@[simp] theorem abs_nan : abs .nan = .nan := rfl

/-- The value in units, with its sign; both zeros give zero. -/
def signedUnits (negative : Bool) (rank : Nat) : Int :=
  if negative then -(units rank) else units rank

/-- The exact value of a finite double. -/
def toRat? : Binary64 → Option Rat
  | .finite negative rank => some (mkRat (signedUnits negative rank) unitsPerOne)
  | _ => none

/-- Where a double stands in the order of the reals with infinities; the two zeros stand together.
-/
def place? : Binary64 → Option Int
  | .nan => none
  | .infinite negative => some (if negative then -rankCount else rankCount)
  | .finite negative rank => some (if negative then -(rank : Int) else rank)

/-- Comparison of numbers, never true of `nan`. -/
def lt (x y : Binary64) : Bool :=
  match x.place?, y.place? with
  | some a, some b => a < b
  | _, _ => false

def le (x y : Binary64) : Bool :=
  match x.place?, y.place? with
  | some a, some b => a ≤ b
  | _, _ => false

end Binary64
end NotationCalculator
