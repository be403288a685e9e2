import NotationCalculator.Binary64.Rounding

/-!
# Arithmetic of doubles

Each operation takes the exact result as a quotient of numbers of units and rounds it once. The
sign of a zero sum is negative only when both terms are negative; a product or quotient has the
sign of its factors; a remainder and a rounded value keep the sign of the dividend or argument. `0
/ 0`, `∞ - ∞`, `∞ / ∞`, `0 · ∞`, the root of a negative number and the remainder by zero or of an
infinity are not numbers.
-/
namespace NotationCalculator.Binary64

/-- The double nearest to a sum of units; `zeroSign` is the sign of an exact zero. -/
def ofSum (zeroSign : Bool) (sum : Int) : Binary64 :=
  if sum = 0 then zero zeroSign else ofUnits (sum < 0) sum.natAbs 1

def add : Binary64 → Binary64 → Binary64
  | .nan, _ => .nan
  | _, .nan => .nan
  | .infinite s, .infinite t => if s = t then .infinite s else .nan
  | .infinite s, .finite _ _ => .infinite s
  | .finite _ _, .infinite t => .infinite t
  | .finite s a, .finite t b => ofSum (s && t) (signedUnits s a + signedUnits t b)

def sub (x y : Binary64) : Binary64 := add x y.neg

def mul : Binary64 → Binary64 → Binary64
  | .nan, _ => .nan
  | _, .nan => .nan
  | .infinite s, .infinite t => .infinite (s ^^ t)
  | .infinite s, .finite t b => if b.val = 0 then .nan else .infinite (s ^^ t)
  | .finite s a, .infinite t => if a.val = 0 then .nan else .infinite (s ^^ t)
  | .finite s a, .finite t b => ofUnits (s ^^ t) (units a * units b) unitsPerOne

def div : Binary64 → Binary64 → Binary64
  | .nan, _ => .nan
  | _, .nan => .nan
  | .infinite _, .infinite _ => .nan
  | .infinite s, .finite t _ => .infinite (s ^^ t)
  | .finite s _, .infinite t => zero (s ^^ t)
  | .finite s a, .finite t b =>
    if b.val = 0 then (if a.val = 0 then .nan else .infinite (s ^^ t))
    else ofUnits (s ^^ t) (units a * unitsPerOne) (units b)

/-- The exact remainder of the division truncated towards zero. -/
def remainder : Binary64 → Binary64 → Binary64
  | .nan, _ => .nan
  | _, .nan => .nan
  | .infinite _, _ => .nan
  | x, .infinite _ => x
  | .finite s a, .finite _ b => if b.val = 0 then .nan else ofUnits s (units a % units b) 1

/-- The square root. The root `r` of the scaled argument is a whole number of units, or else lies
strictly between `r` and `r + 1`, where no double and no midpoint of two doubles lies. -/
def sqrt : Binary64 → Binary64
  | .nan => .nan
  | .infinite negative => if negative then .nan else .infinite false
  | .finite negative rank =>
    if rank.val = 0 then .finite negative rank
    else if negative then .nan
    else
      let n := units rank * unitsPerOne
      let r := n.sqrt
      if r * r = n then ofUnits false r 1 else ofUnits false (2 * r + 1) 2

/-- The greatest integer that is not above the argument. -/
def floor : Binary64 → Binary64
  | .nan => .nan
  | .infinite negative => .infinite negative
  | .finite negative rank =>
    let whole := units rank / unitsPerOne
    let down := if negative ∧ units rank % unitsPerOne ≠ 0 then whole + 1 else whole
    ofUnits negative (down * unitsPerOne) 1

def one : Binary64 := ofInt 1

def half : Binary64 := ofUnits false unitsPerOne 2

@[simp] theorem add_nan (x : Binary64) : add x .nan = .nan := by cases x <;> rfl

@[simp] theorem nan_add (x : Binary64) : add .nan x = .nan := by cases x <;> rfl

@[simp] theorem sub_nan (x : Binary64) : sub x .nan = .nan := add_nan x

@[simp] theorem nan_sub (x : Binary64) : sub .nan x = .nan := nan_add _

@[simp] theorem mul_nan (x : Binary64) : mul x .nan = .nan := by cases x <;> rfl

@[simp] theorem nan_mul (x : Binary64) : mul .nan x = .nan := by cases x <;> rfl

@[simp] theorem div_nan (x : Binary64) : div x .nan = .nan := by cases x <;> rfl

@[simp] theorem nan_div (x : Binary64) : div .nan x = .nan := by cases x <;> rfl

@[simp] theorem remainder_nan (x : Binary64) : remainder x .nan = .nan := by cases x <;> rfl

@[simp] theorem nan_remainder (x : Binary64) : remainder .nan x = .nan := by cases x <;> rfl

@[simp] theorem sqrt_nan : sqrt .nan = .nan := rfl

end NotationCalculator.Binary64
