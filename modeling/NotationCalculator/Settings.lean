import NotationCalculator.AngleUnit
import NotationCalculator.Operator

/-!
# Errors and settings

What a calculator can refuse, and how it says so. The settings are the angle unit and the number of
decimal places that results are printed with. The places matter to printing alone: any natural
number can be set, but from `2 ^ 31` places on no number is printed any more, and a precision of
more than 4300 digits is not printed itself.
-/
namespace NotationCalculator

inductive Error where
  /-- A text that names no angle unit. -/
  | unknownAngleUnit
  | negativePrecision
  /-- The operators of in-order notation cannot be replaced. -/
  | fixedUnaryOperators
  | fixedBinaryOperators
  /-- A number cannot be printed with so many places, from `2 ^ 31` on. -/
  | precisionTooBig
  /-- A number cannot be printed with so many places, from `2 ^ 63` on. -/
  | tooManyPlaces
  /-- A command gives the precision with this many digits, more than can be read. -/
  | precisionTooLong (digits : Nat)
  /-- The precision has more digits than can be written. -/
  | precisionUnwritable
  | fault (cause : Fault)
  deriving DecidableEq

namespace Error

/-- A precision is neither read nor written with more digits than this. -/
def digitLimit : Nat := 4300

def message : Error → String
  | .unknownAngleUnit => "La unidad angular debe ser 'rad' o 'deg'"
  | .negativePrecision => "La precisión no puede ser negativa"
  | .fixedUnaryOperators => "La calculadora infija no admite cambiar los operadores unarios"
  | .fixedBinaryOperators => "La calculadora infija no admite cambiar los operadores binarios"
  | .precisionTooBig => "precision too big"
  | .tooManyPlaces => "Too many decimal digits in format string"
  | .precisionTooLong digits =>
    "Exceeds the limit (" ++ toString digitLimit ++
      " digits) for integer string conversion: value has " ++ toString digits ++
      " digits; use sys.set_int_max_str_digits() to increase the limit"
  | .precisionUnwritable =>
    "Exceeds the limit (" ++ toString digitLimit ++
      " digits) for integer string conversion; " ++
      "use sys.set_int_max_str_digits() to increase the limit"
  | .fault cause => cause.message

end Error

structure Settings where
  angleUnit : AngleUnit := .radians
  precision : Nat := 2
  deriving DecidableEq

namespace Settings

/-- The precision has few enough digits to be written. -/
def IsWritable (settings : Settings) : Prop :=
  (Nat.toDigits 10 settings.precision).length ≤ Error.digitLimit

instance (settings : Settings) : Decidable settings.IsWritable :=
  inferInstanceAs (Decidable (_ ≤ _))

/-- The precision in decimal digits. -/
def writtenPrecision (settings : Settings) : Except Error String :=
  if settings.IsWritable then .ok (toString settings.precision) else .error .precisionUnwritable

def text (settings : Settings) : Except Error String :=
  settings.writtenPrecision.map fun number =>
    "angles: " ++ settings.angleUnit.label ++ ", precision: " ++ number

/-- Sets the angle unit that a text names. -/
def setAngleUnit (settings : Settings) (name : String) : Except Error Settings :=
  match AngleUnit.ofText? name with
  | some unit => .ok { settings with angleUnit := unit }
  | none => .error .unknownAngleUnit

/-- Sets the precision to the whole part of a number that is not negative. -/
def setPrecision (settings : Settings) (places : Rat) : Except Error Settings :=
  if places < 0 then .error .negativePrecision
  else .ok { settings with precision := places.floor.toNat }

/-- The text of a result; one that is not a number is an error whatever the precision. The number
of places is written out before a number is printed with them. -/
def render (settings : Settings) (x : Binary64) : Except Error String :=
  if x.isNaN then .ok "ERROR"
  else do
    let _ ← settings.writtenPrecision
    if settings.precision < Nat.pow 2 31 then return (x.fixed? settings.precision).getD "ERROR"
    else if settings.precision < Nat.pow 2 63 then .error .precisionTooBig
    else .error .tooManyPlaces

@[simp] theorem render_nan (settings : Settings) : settings.render .nan = .ok "ERROR" := rfl

end Settings
end NotationCalculator
