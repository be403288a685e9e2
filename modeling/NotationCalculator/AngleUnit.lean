import NotationCalculator.Binary64.Arithmetic
import NotationCalculator.Text

/-!
# Angle units

Trigonometric functions work in radians; in degrees an angle is multiplied by the double nearest
to `π / 180` on its way in and by the one nearest to `180 / π` on its way out. A unit is named in
full or by its first three letters.
-/
namespace NotationCalculator

inductive AngleUnit where
  | radians
  | degrees
  deriving DecidableEq, Inhabited

namespace AngleUnit

open Text

/-- The double nearest to a half turn in radians. -/
def halfTurn : Binary64 := .ofBits 0x400921FB54442D18

def straight : Binary64 := .ofInt 180

def toRadians : AngleUnit → Binary64 → Binary64
  | .radians, x => x
  | .degrees, x => x.mul (halfTurn.div straight)

def fromRadians : AngleUnit → Binary64 → Binary64
  | .radians, x => x
  | .degrees, x => x.mul (straight.div halfTurn)

def label : AngleUnit → String
  | .radians => "radians"
  | .degrees => "degrees"

def shortLabel : AngleUnit → String
  | .radians => "rad"
  | .degrees => "deg"

/-- The unit that a text names, in letters of either case and with blanks around it. -/
def ofText? (text : String) : Option AngleUnit :=
  let name := lower (String.ofList (trim text.toList))
  [radians, degrees].find? fun unit => name = unit.label || name = unit.shortLabel

@[simp] theorem toRadians_radians (x : Binary64) : toRadians .radians x = x := rfl

@[simp] theorem fromRadians_radians (x : Binary64) : fromRadians .radians x = x := rfl

@[simp] theorem toRadians_nan (unit : AngleUnit) : unit.toRadians .nan = .nan := by
  cases unit <;> simp [toRadians]

@[simp] theorem fromRadians_nan (unit : AngleUnit) : unit.fromRadians .nan = .nan := by
  cases unit <;> simp [fromRadians]

end AngleUnit
end NotationCalculator
