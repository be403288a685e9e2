import NotationCalculator.Binary64.Basic

/-!
# Rounding to doubles and to decimal places

A quotient of natural numbers is rounded to an integer in one way, to the nearest, a half to the
even neighbour. The choice of a double and the choice of the last decimal place of a printed number
are both made by it.
-/
namespace NotationCalculator.Rounding

/-- The integer nearest to `n / d`; a half goes to the even neighbour. -/
def roundQuotient (n d : Nat) : Nat :=
  let q := n / d
  let r := n % d
  if 2 * r < d ∨ (2 * r = d ∧ q % 2 = 0) then q else q + 1

end NotationCalculator.Rounding

namespace NotationCalculator.Binary64

/-!
## The double nearest to a quotient

A quotient of natural numbers, counted in units, is rounded once: its binade fixes the spacing of
the doubles around it, and the nearest multiple of that spacing is taken, the even one of two that
are equally near. A carry out of the binade needs no case of its own, because the first rank of a
binade follows the last one of the binade below. Past the largest magnitude the result is an
infinity.
-/

open Rounding

/-- The rank nearest to `n / d` units when there is no largest one. -/
def nearestRank (n d : Nat) : Nat :=
  let e := (n / d).log2 - 52
  e * Nat.pow 2 52 + roundQuotient n (d * Nat.pow 2 e)

/-- The double nearest to `n / d` units, with the given sign. -/
def ofUnits (negative : Bool) (n d : Nat) : Binary64 := ofRank negative (nearestRank n d)

/-- The double nearest to an integer; zero is positive. -/
def ofInt (i : Int) : Binary64 := ofUnits (i < 0) (i.natAbs * unitsPerOne) 1

/-- The double nearest to `mantissa · 10 ^ exponent`. Beyond the bounds of the first three
branches the answer is known without computing the power. -/
def ofDecimal (negative : Bool) (mantissa : Nat) (exponent : Int) : Binary64 :=
  if mantissa = 0 then zero negative
  else if exponent ≥ 310 then .infinite negative
  else if exponent + mantissa.log2 + 1 ≤ -330 then zero negative
  else if exponent ≥ 0 then
    ofUnits negative (mantissa * Nat.pow 10 exponent.toNat * unitsPerOne) 1
  else ofUnits negative (mantissa * unitsPerOne) (Nat.pow 10 (-exponent).toNat)

/-!
## Fixed-point text of a double

A finite double is printed with a fixed number of decimal places: its exact value is rounded to
the nearest multiple of the last place, a half to the even digit. The sign is that of the double,
so a negative number that rounds to zero is printed with its sign.
-/

/-- The digits of `n / 10 ^ places`, with exactly `places` of them after the point, and no point
when there are none. -/
def placedDigits (n places : Nat) : List Char :=
  let whole := Nat.toDigits 10 (n / Nat.pow 10 places)
  if places = 0 then whole
  else whole ++ '.' :: List.leftpad places '0' (Nat.toDigits 10 (n % Nat.pow 10 places))

/-- The multiple of `10 ^ (-places)` nearest to a magnitude, as the number of its multiples. -/
def lastPlaces (rank places : Nat) : Nat :=
  roundQuotient (units rank * Nat.pow 10 places) unitsPerOne

/-- The text of a number with the given count of places; `nan` has none. -/
def fixed? (places : Nat) : Binary64 → Option String
  | .nan => none
  | .infinite negative => some (if negative then "-inf" else "inf")
  | .finite negative rank =>
    let digits := placedDigits (lastPlaces rank places) places
    some (String.ofList (if negative then '-' :: digits else digits))

end NotationCalculator.Binary64
