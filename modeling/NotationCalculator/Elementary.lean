import NotationCalculator.Binary64.Arithmetic
import NotationCalculator.Enclosure

/-!
# Elementary functions

Exponentials, circular functions and powers, each the double nearest to the exact value.
-/
namespace NotationCalculator.Binary64

open Enclosure

/-!
## Settling the nearest double

The value of an elementary function is enclosed with more and more binary places until one double
is nearest to everything enclosed. This must happen unless the exact value lies halfway between
two doubles, and those values are answered without enclosing them.
-/

/-- The numbers of places that are tried in turn. The second leaves 270 of them to the least
double. -/
def settlingPlaces : List Nat := [192, 1344, 2688, 5376]

/-- The double nearest to the real that `enclose` encloses, each time with its own number of
places. -/
def settleWith (enclose : Nat → Option (Nat × Enclosure)) : Binary64 :=
  let attempt (p : Nat) : Option Binary64 := (enclose p).bind fun (q, result) => result.nearest? q
  (settlingPlaces.findSome? attempt).getD .nan

def settle (enclose : Nat → Option Enclosure) : Binary64 :=
  settleWith fun p => (enclose p).map (p, ·)

/-- The value of a finite double with `p` places. -/
def enclosure (p : Nat) (negative : Bool) (rank : Nat) : Enclosure :=
  .ofQuotient p (signedUnits negative rank) unitsPerOne

def isOne (rank : Nat) : Bool := units rank = unitsPerOne

/-!
## Exponential, logarithms and hyperbolic functions

The doubles nearest to the exact values. Odd functions keep the sign of a zero; the logarithm of a
zero is negative infinity, and that of a negative number is not a number.
-/

def exp : Binary64 → Binary64
  | .nan => .nan
  | .infinite negative => if negative then zero false else .infinite false
  | .finite negative rank =>
    if rank.val = 0 then one else settle fun p => exp? p (enclosure p negative rank)

/-- A logarithm, given by enclosures for positive numbers other than one. -/
def logarithm (enclose : Nat → Nat → Option Enclosure) : Binary64 → Binary64
  | .nan => .nan
  | .infinite negative => if negative then .nan else .infinite false
  | .finite negative rank =>
    if rank.val = 0 then .infinite true
    else if negative then .nan
    else if isOne rank then zero false
    else settle fun p => enclose p (units rank)

def log : Binary64 → Binary64 := logarithm fun p n => some (ln p n unitsPerOne)

def log10 : Binary64 → Binary64 :=
  logarithm fun p n => (ln p n unitsPerOne).div? p (ln p 10 1)

def sinh : Binary64 → Binary64
  | .nan => .nan
  | .infinite negative => .infinite negative
  | .finite negative rank =>
    if rank.val = 0 then .finite negative rank
    else settle fun p => do
      let x := enclosure p negative rank
      return ((← exp? p x).sub (← exp? p x.neg)).divNat 2

def cosh : Binary64 → Binary64
  | .nan => .nan
  | .infinite _ => .infinite false
  | .finite negative rank =>
    if rank.val = 0 then one
    else settle fun p => do
      let x := enclosure p negative rank
      return ((← exp? p x).add (← exp? p x.neg)).divNat 2

def tanh : Binary64 → Binary64
  | .nan => .nan
  | .infinite negative => if negative then one.neg else one
  | .finite negative rank =>
    if rank.val = 0 then .finite negative rank
    else settle fun p => do
      let square ← exp? p ((enclosure p negative rank).scale 2)
      let unit := Enclosure.ofInt p 1
      (square.sub unit).div? p (square.add unit)

@[simp] theorem exp_nan : exp .nan = .nan := rfl

@[simp] theorem log_nan : log .nan = .nan := rfl

@[simp] theorem log10_nan : log10 .nan = .nan := rfl

@[simp] theorem sinh_nan : sinh .nan = .nan := rfl

@[simp] theorem cosh_nan : cosh .nan = .nan := rfl

@[simp] theorem tanh_nan : tanh .nan = .nan := rfl

/-!
## Trigonometric functions and their inverses

Arguments and results are in radians, and the results are the doubles nearest to the exact values.
Odd functions keep the sign of a zero; an infinite angle has no sine, and a number beyond one in
size has no inverse sine or cosine. The reciprocal functions divide in doubles, before or after.
-/

/-- A function of the sine and cosine of a finite angle that is not zero. The reduction of an
angle needs its digits before the point besides those after. -/
def ofSinCos (combine : Nat → Enclosure × Enclosure → Option Enclosure) (negative : Bool)
    (rank : Nat) : Binary64 :=
  settleWith fun p => do
    let q := p + (units rank / unitsPerOne).log2 + 2
    let result ← combine q (← sinCos? q (signedUnits negative rank) unitsPerOne)
    return (q, result)

def sin : Binary64 → Binary64
  | .nan => .nan
  | .infinite _ => .nan
  | .finite negative rank =>
    if rank.val = 0 then .finite negative rank
    else ofSinCos (fun _ (sine, _) => some sine) negative rank

def cos : Binary64 → Binary64
  | .nan => .nan
  | .infinite _ => .nan
  | .finite negative rank =>
    if rank.val = 0 then one else ofSinCos (fun _ (_, cosine) => some cosine) negative rank

def tan : Binary64 → Binary64
  | .nan => .nan
  | .infinite _ => .nan
  | .finite negative rank =>
    if rank.val = 0 then .finite negative rank
    else ofSinCos (fun p (sine, cosine) => sine.div? p cosine) negative rank

def asin : Binary64 → Binary64
  | .nan => .nan
  | .infinite _ => .nan
  | .finite negative rank =>
    if rank.val = 0 then .finite negative rank
    else if isOne rank then
      settle fun p => some (if negative then (quarterTurn p).neg else quarterTurn p)
    else if unitsPerOne < units rank then .nan
    else settle fun p => do
      let square : Nat := Nat.pow unitsPerOne 2 - Nat.pow (units rank) 2
      let cosine := (Enclosure.ofQuotient p square (Nat.pow unitsPerOne 2)).sqrt p
      arctan? p (← (enclosure p negative rank).div? p cosine)

/-- Twice the angle whose tangent is the root of `(1 - x) / (1 + x)`. -/
def acos : Binary64 → Binary64
  | .nan => .nan
  | .infinite _ => .nan
  | .finite negative rank =>
    if isOne rank then (if negative then settle fun p => some (halfTurn p) else zero false)
    else if unitsPerOne < units rank then .nan
    else settle fun p => do
      let x := signedUnits negative rank
      let ratio := Enclosure.ofQuotient p (unitsPerOne - x) (unitsPerOne + x).toNat
      return (← arctan? p (ratio.sqrt p)).scale 2

def atan : Binary64 → Binary64
  | .nan => .nan
  | .infinite negative =>
    settle fun p => some (if negative then (quarterTurn p).neg else quarterTurn p)
  | .finite negative rank =>
    if rank.val = 0 then .finite negative rank
    else settle fun p => arctan? p (enclosure p negative rank)

def sec (x : Binary64) : Binary64 := div one (cos x)

def csc (x : Binary64) : Binary64 := div one (sin x)

def cot (x : Binary64) : Binary64 := div one (tan x)

def asec (x : Binary64) : Binary64 := acos (div one x)

def acsc (x : Binary64) : Binary64 := asin (div one x)

def acot (x : Binary64) : Binary64 := atan (div one x)

@[simp] theorem sin_nan : sin .nan = .nan := rfl

@[simp] theorem cos_nan : cos .nan = .nan := rfl

@[simp] theorem tan_nan : tan .nan = .nan := rfl

@[simp] theorem asin_nan : asin .nan = .nan := rfl

@[simp] theorem acos_nan : acos .nan = .nan := rfl

@[simp] theorem atan_nan : atan .nan = .nan := rfl

@[simp] theorem sec_nan : sec .nan = .nan := by simp [sec]

@[simp] theorem csc_nan : csc .nan = .nan := by simp [csc]

@[simp] theorem cot_nan : cot .nan = .nan := by simp [cot]

@[simp] theorem asec_nan : asec .nan = .nan := by simp [asec]

@[simp] theorem acsc_nan : acsc .nan = .nan := by simp [acsc]

@[simp] theorem acot_nan : acot .nan = .nan := by simp [acot]

/-!
## Powers

A power with a rational value is computed exactly and rounded once: a value halfway between two
doubles is always of this kind. The exponent is made an integer by taking exact square roots of
the base, and integers up to 64 are exponents of a quotient of naturals; a power of two may be
raised to any exponent that gives another one. All other powers are irrational, or need more
digits than a halfway point has, and are enclosed as exponentials of a multiple of the logarithm.

A zero exponent gives one for every base, and the base one gives one for every exponent that is a
finite number. A negative base needs an integer exponent, whose parity decides the sign. `power`
gives no value to an exponent that is not a number, nor to an infinite exponent of one or minus
one.
-/

/-- Exponents up to this size are raised exactly. -/
def exactExponentBound : Nat := 64

/-- `(n / d) ^ k` for the base and the exponent in units, when `k` is a small integer. -/
def integerPower? (base : Nat) (negative : Bool) (exponent : Nat) : Option Binary64 :=
  let k := exponent / unitsPerOne
  if exponent % unitsPerOne = 0 ∧ k ≤ exactExponentBound then
    some <|
      if negative then ofUnits false (Nat.pow unitsPerOne (k + 1)) (Nat.pow base k)
      else ofUnits false (Nat.pow base k * unitsPerOne) (Nat.pow unitsPerOne k)
  else none

/-- A power whose exponent becomes a small integer when at most `roots` square roots are taken of
the base. Since `unitsPerOne` is a square, a base of square value is a square number of units. -/
def rootPower? (negative : Bool) : Nat → Nat → Nat → Option Binary64
  | 0, base, exponent => integerPower? base negative exponent
  | roots + 1, base, exponent =>
    if exponent % unitsPerOne = 0 then integerPower? base negative exponent
    else if base.sqrt * base.sqrt = base then
      rootPower? negative roots (base.sqrt * unitsPerOne.sqrt) (2 * exponent)
    else none

/-- More square roots than an odd number below `2 ^ 53` has, other than one. -/
def rootBound : Nat := 6

/-- Two to an integer, which is brought within bounds that leave the nearest double alone. -/
def twoPower (k : Int) : Binary64 :=
  let k := max (-1100) (min 1100 k)
  if 0 ≤ k then ofUnits false (Nat.pow 2 k.toNat * unitsPerOne) 1
  else ofUnits false unitsPerOne (Nat.pow 2 (-k).toNat)

/-- A power of two to an exponent that gives another one. -/
def binaryPower? (base : Nat) (exponent : Int) : Option Binary64 :=
  let k := ((base.log2 : Int) - 1074) * exponent
  if base = Nat.pow 2 base.log2 ∧ k % unitsPerOne = 0 then some (twoPower (k / unitsPerOne))
  else none

/-- `b ^ y` for a positive finite `b` and a finite `y`, neither zero, given as numbers of units.
-/
def positivePower (base : Nat) (exponent : Int) : Binary64 :=
  match binaryPower? base exponent with
  | some x => x
  | none =>
    match rootPower? (exponent < 0) rootBound base exponent.natAbs with
    | some x => x
    | none =>
      settleWith fun p => do
        let q := p + (exponent.natAbs / unitsPerOne).log2 + 2
        let product := ((ln q base unitsPerOne).scale exponent).divNat unitsPerOne
        return (q, ← exp? q product)

/-- Whether a finite magnitude is an integer, and an odd one. -/
def isInteger (rank : Nat) : Bool := units rank % unitsPerOne = 0

def isOddInteger (rank : Nat) : Bool := isInteger rank && units rank / unitsPerOne % 2 = 1

/-- A zero or an infinity with the given sign, from the power of one of them. -/
def extremePower (large negative : Bool) : Binary64 :=
  if large then .infinite negative else zero negative

/-- The power as the arithmetic standard has it, where `x ^ 0` and `1 ^ y` are one for all `x` and
`y`. -/
def standardPower : Binary64 → Binary64 → Binary64
  | x, .finite s y =>
    if y.val = 0 then one
    else match x with
      | .nan => .nan
      | .infinite t => extremePower (!s) (t && isOddInteger y)
      | .finite t b =>
        if b.val = 0 then extremePower s (t && isOddInteger y)
        else if t && !isInteger y then .nan
        else
          let size := if isOne b then one else positivePower (units b) (signedUnits s y)
          if t && isOddInteger y then size.neg else size
  | .nan, _ => .nan
  | x, .nan => if x = one then one else .nan
  | .infinite _, .infinite s => extremePower (!s) false
  | .finite _ b, .infinite s =>
    if isOne b then one else extremePower ((unitsPerOne < units b) != s) false

/-- The power, with no value for an exponent that leaves `1` or `-1` without a limit. -/
def power (x y : Binary64) : Binary64 :=
  if y.isNaN || (x.abs = one && y.isInfinite) then .nan else standardPower x y

@[simp] theorem power_nan (x : Binary64) : power x .nan = .nan := by simp [power, isNaN]

/-- A power of `nan` is a number only for a zero exponent. -/
theorem nan_power_eq_nan_iff {y : Binary64} :
    power .nan y = .nan ↔ ∀ negative, y ≠ zero negative := by
  have hone : one ≠ .nan := by
    rw [one, ofInt, ofUnits]
    exact ofRank_ne_nan _ _
  cases y with
  | nan => simp [zero_eq]
  | infinite s => simp [power, standardPower, zero_eq, isNaN, hone.symm]
  | finite s rank =>
    have hpower : power .nan (.finite s rank) = if rank.val = 0 then one else .nan := by
      simp [power, standardPower, isNaN, isInfinite]
    rw [hpower]
    simp only [zero_eq, ne_eq, finite.injEq, Fin.ext_iff, not_and]
    split
    · next hzero => simp [hone, hzero]
    · next hzero => simp [hzero]

end NotationCalculator.Binary64
