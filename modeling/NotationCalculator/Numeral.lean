import NotationCalculator.Binary64.Rounding
import NotationCalculator.Text

/-!
# Numerals

A numeral is an optional sign, digits with an optional point among, before or after them, and an
optional exponent of ten: at least one digit must stand in the mantissa and, where there is an
`e`, in the exponent. `Numeral.read?` accepts a text only when all of it is a numeral, and keeps
the number exactly as written; `parse?` rounds it to a double once. Digits of all scripts count,
signs, point and `e` are ASCII.
-/
namespace NotationCalculator

/-- The number `± mantissa · 10 ^ exponent`. -/
structure Numeral where
  negative : Bool
  mantissa : Nat
  exponent : Int
  deriving DecidableEq

namespace Numeral

open Text

/-- Whether a minus sign stands in front, and what follows the sign. -/
def spanSign : List Char → Bool × List Char
  | '-' :: cs => (true, cs)
  | '+' :: cs => (false, cs)
  | cs => (false, cs)

/-- The digits after a point, and what follows them. -/
def spanFraction : List Char → List Nat × List Char
  | '.' :: cs => spanDigits cs
  | cs => ([], cs)

/-- The exponent that the whole of a text writes; an empty text writes zero. -/
def readExponent? : List Char → Option Int
  | [] => some 0
  | c :: cs =>
    if c = 'e' ∨ c = 'E' then
      let (negative, cs) := spanSign cs
      match spanDigits cs with
      | (d :: ds, []) =>
        let size : Int := positional (d :: ds)
        some (if negative then -size else size)
      | _ => none
    else none

/-- The numeral that the whole of a text writes. -/
def read? (cs : List Char) : Option Numeral :=
  let (negative, cs) := spanSign cs
  let (whole, cs) := spanDigits cs
  let (fraction, cs) := spanFraction cs
  if whole = [] ∧ fraction = [] then none
  else (readExponent? cs).map fun e =>
    ⟨negative, positional (whole ++ fraction), e - fraction.length⟩

def toBinary64 (n : Numeral) : Binary64 := .ofDecimal n.negative n.mantissa n.exponent

/-- The double nearest to the number that a token writes, if it is a numeral. -/
def parse? (token : String) : Option Binary64 := (read? token.toList).map toBinary64

end Numeral
end NotationCalculator
