import NotationCalculator.Calculator

/-!
# The console

The console answers lines with one calculator at a time, which starts in post-order notation. A
command shows or changes the settings or switches to a new calculator with the same settings; an
expression is evaluated and shown with its value. A raw line is trimmed and its runs of spaces and
tabs are made one space first. An error ends the console, and what was written before it stays.

A line is a command when the whole of it is the command's word, in letters of either case, or the
word `precision`, blanks and decimal digits. Every other line is an expression.
-/
namespace NotationCalculator

/-- The notations that the console switches between. -/
inductive Notation where
  | preOrder
  | inOrder
  | postOrder
  deriving DecidableEq

namespace Notation

def word : Notation → String
  | .preOrder => "prefix"
  | .inOrder => "infix"
  | .postOrder => "postfix"

/-- The notation with the standard operators. -/
def dialect : Notation → Dialect
  | .preOrder => .preOrder .standard
  | .inOrder => .inOrder
  | .postOrder => .postOrder .standard

end Notation

inductive Command where
  | help
  | settings
  | switchTo (new : Notation)
  | angleUnit (unit : AngleUnit)
  | precision (digits : List Nat)
  deriving DecidableEq

namespace Command

open Text

/-- The digits that the whole of a line gives as the precision. -/
def precisionDigits? (line : List Char) : Option (List Nat) :=
  match dropForms "precision".toList line with
  | some (c :: cs) =>
    if isBlank c then
      match spanDigits (cs.dropWhile isBlank) with
      | (d :: ds, []) => some (d :: ds)
      | _ => none
    else none
  | _ => none

def ofLine? (line : String) : Option Command :=
  let word := lower line
  if word = "help" then some .help
  else if word = "settings" then some .settings
  else match [.preOrder, .inOrder, .postOrder].find? fun new : Notation => word = new.word with
    | some new => some (.switchTo new)
    | none =>
      match [.radians, .degrees].find? fun unit : AngleUnit => word = unit.label with
      | some unit => some (.angleUnit unit)
      | none => (precisionDigits? line.toList).map .precision

end Command

namespace Console

open Text

def banner : String := "Calculadora de notaciones. Escriba \"help\" para ver los comandos.\n\n"

def prompt : String := ">> "

def start : Calculator := { dialect := Notation.postOrder.dialect }

def helpText (tables : OperatorTables) : String :=
  "Comandos:\n" ++
  "  help                  muestra esta ayuda\n" ++
  "  settings              muestra unidad angular y precisión\n" ++
  "  prefix|infix|postfix  cambia la notación\n" ++
  "  radians|degrees       cambia la unidad angular\n" ++
  "  precision <n>         dígitos decimales al mostrar resultados\n" ++
  "  quit                  salir\n" ++
  "Operadores unarios: " ++ " ".intercalate tables.unary.names ++ "\n" ++
  "Operadores binarios: " ++ " ".intercalate tables.binary.names ++ "\n" ++
  "Use \"ans\" para la última respuesta."

/-- The text that a command shows, and the calculator after it. What a command sets remains set even
if the settings cannot be shown. -/
def obey (c : Calculator) : Command → Except Error String × Calculator
  | .help => (.ok (helpText c.tables), c)
  | .settings => (c.settings.text, c)
  | .switchTo new =>
    (.ok ("notación: " ++ new.word), { dialect := new.dialect, settings := c.settings })
  | .angleUnit unit =>
    let settings := { c.settings with angleUnit := unit }
    (settings.text, { c with settings })
  | .precision digits =>
    if digits.length ≤ Error.digitLimit then
      let settings := { c.settings with precision := positional digits }
      (settings.text, { c with settings })
    else (.error (.precisionTooLong digits.length), c)

/-- The line with its value, or a sign that it has none. -/
def show? (settings : Settings) (line : String) (x : Binary64) : Except Error String :=
  (settings.render x).map fun text => if text = "ERROR" then text else line ++ " = " ++ text

/-- The text shown for an expression. Its value is the last answer even if it cannot be shown. -/
def answer (c : Calculator) (line : String) : Except Error String × Calculator :=
  match c.evaluate line with
  | (.ok x, after) => (show? c.settings line x, after)
  | (.error cause, after) => (.error (.fault cause), after)

/-- The text shown for a line, and the calculator after it. -/
def handle (c : Calculator) (line : String) : Except Error String × Calculator :=
  match Command.ofLine? line with
  | some command => obey c command
  | none => answer c line

/-- A raw line as it is answered and shown. -/
def tidy (raw : String) : String := String.ofList (squeeze (trim raw.toList))

/-- What the console does with a raw line. -/
inductive Reaction where
  /-- The console goes on with a calculator, after writing a text. -/
  | next (written : String) (c : Calculator)
  | quit
  | failure (error : Error)

def react (c : Calculator) (raw : String) : Reaction :=
  let line := tidy raw
  if lower line = "quit" then .quit
  else if line = "" then .next "" c
  else match handle c line with
    | (.ok text, after) => .next (text ++ "\n\n") after
    | (.error e, _) => .failure e

/-- All that is written after the banner while the lines are read, and the error that ended it. -/
def transcriptFrom (c : Calculator) : List String → String × Option Error
  | [] => (prompt ++ "\n", none)
  | raw :: lines =>
    match react c raw with
    | .next written c =>
      let (text, error) := transcriptFrom c lines
      (prompt ++ written ++ text, error)
    | .quit => (prompt, none)
    | .failure e => (prompt, some e)

def transcript (lines : List String) : String × Option Error :=
  let (text, error) := transcriptFrom start lines
  (banner ++ text, error)

/-- All that is written for a whole input, and the error that ended it. -/
def output (input : String) : String × Option Error := transcript (Text.lines input)

end Console
end NotationCalculator
