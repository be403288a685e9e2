/-!
# Texts

What the characters of a text are and how it is cut into pieces: blanks, words, lines, letters in
either case and decimal digits.
-/
namespace NotationCalculator.Text

/-!
## Blank characters

The characters that separate tokens and are trimmed from the ends of a line: the controls from tab
to carriage return, the four information separators, the space, and the spaces and line separators
of Unicode. Zero-width characters and the byte order mark are not blank. Where a line is made tidy,
runs of spaces and tabs alone become one space.
-/

/-- The blank code points as closed ranges. -/
def blankRanges : List (Nat × Nat) :=
  [(0x09, 0x0D), (0x1C, 0x20), (0x85, 0x85), (0xA0, 0xA0), (0x1680, 0x1680), (0x2000, 0x200A),
    (0x2028, 0x2029), (0x202F, 0x202F), (0x205F, 0x205F), (0x3000, 0x3000)]

def isBlank (c : Char) : Bool :=
  blankRanges.any fun (first, last) => first ≤ c.toNat && c.toNat ≤ last

/-- The text without the blanks at its ends. -/
def trim (cs : List Char) : List Char :=
  ((cs.dropWhile isBlank).reverse.dropWhile isBlank).reverse

def isSpaceOrTab (c : Char) : Bool := c = ' ' || c = '\t'

/-- The text with each run of spaces and tabs made one space. -/
def squeeze : List Char → List Char
  | [] => []
  | c :: cs =>
    if isSpaceOrTab c then
      match cs with
      | [] => [' ']
      | d :: _ => if isSpaceOrTab d then squeeze cs else ' ' :: squeeze cs
    else c :: squeeze cs

/-!
## Words of a text

A word is a longest run of characters that are not blank. `words` lists them in order; blanks,
however many and of whatever kind, only separate.
-/

/-- The words of a list of characters. A character in front of another that is not blank joins its
word. -/
def splitWords : List Char → List (List Char)
  | [] => []
  | c :: cs =>
    if isBlank c then splitWords cs
    else match cs with
      | [] => [[c]]
      | d :: _ => if isBlank d then [c] :: splitWords cs else (splitWords cs).modifyHead (c :: ·)

def words (text : String) : List String := (splitWords text.toList).map String.ofList

@[simp] theorem splitWords_nil : splitWords [] = [] := rfl

theorem splitWords_cons_blank {c : Char} (h : isBlank c = true) (cs : List Char) :
    splitWords (c :: cs) = splitWords cs := by simp [splitWords, h]

/-!
## Lines of a text

A newline ends a line, and nothing else does. What follows the last newline is one more line unless
it is empty.
-/

/-- The lines of a list of characters, without their newlines. -/
def splitLines : List Char → List (List Char)
  | [] => []
  | c :: cs =>
    if c = '\n' then [] :: splitLines cs
    else match cs with
      | [] => [[c]]
      | _ :: _ => (splitLines cs).modifyHead (c :: ·)

def lines (text : String) : List String := (splitLines text.toList).map String.ofList

/-!
## Letter case

Commands and the name of the last answer are written in ASCII letters of either case. No other
character has a lower case among the letters that these words use, so folding ASCII letters
compares them exactly. The word `precision` is matched more widely: the long s stands for `s`, and
a capital i with a dot and a small one without stand for `i`.
-/

/-- The text with its ASCII letters in lower case. -/
def lower (text : String) : String := String.ofList (text.toList.map Char.toLower)

/-- The given small letter in either case, or one of its other forms. -/
def isFormOf (letter c : Char) : Bool :=
  c.toLower = letter || letter = 's' && c = 'ſ' || letter = 'i' && (c = 'İ' || c = 'ı')

/-- What follows the given small letters, each in any of its forms. -/
def dropForms : List Char → List Char → Option (List Char)
  | [], rest => some rest
  | letter :: letters, c :: cs => if isFormOf letter c then dropForms letters cs else none
  | _ :: _, [] => none

/-!
## Decimal digits

The decimal digits of the scripts of Unicode 14: runs of ten consecutive characters with the values
`0` to `9`. A numeral may mix them. Runs that later versions have added are not digits here.
-/

/-- The code point of each run's digit zero. -/
def digitZeros : List Nat :=
  [0x30, 0x660, 0x6F0, 0x7C0, 0x966, 0x9E6, 0xA66, 0xAE6, 0xB66, 0xBE6, 0xC66, 0xCE6, 0xD66,
    0xDE6, 0xE50, 0xED0, 0xF20, 0x1040, 0x1090, 0x17E0, 0x1810, 0x1946, 0x19D0, 0x1A80, 0x1A90,
    0x1B50, 0x1BB0, 0x1C40, 0x1C50, 0xA620, 0xA8D0, 0xA900, 0xA9D0, 0xA9F0, 0xAA50, 0xABF0, 0xFF10,
    0x104A0, 0x10D30, 0x11066, 0x110F0, 0x11136, 0x111D0, 0x112F0, 0x11450, 0x114D0, 0x11650,
    0x116C0, 0x11730, 0x118E0, 0x11950, 0x11C50, 0x11D50, 0x11DA0, 0x16A60, 0x16AC0, 0x16B50,
    0x1D7CE, 0x1D7D8, 0x1D7E2, 0x1D7EC, 0x1D7F6, 0x1E140, 0x1E2F0, 0x1E950, 0x1FBF0]

/-- The value of a decimal digit. -/
def digitValue? (c : Char) : Option Nat :=
  digitZeros.findSome? fun start =>
    if start ≤ c.toNat ∧ c.toNat < start + 10 then some (c.toNat - start) else none

/-- The values of the digits at the front, and what follows them. -/
def spanDigits : List Char → List Nat × List Char
  | [] => ([], [])
  | c :: cs =>
    match digitValue? c with
    | some d => let (ds, rest) := spanDigits cs; (d :: ds, rest)
    | none => ([], c :: cs)

/-- The number that a row of digits stands for, the most significant one first. -/
def positional (digits : List Nat) : Nat := digits.foldl (fun value d => 10 * value + d) 0

theorem digitValue?_lt {c : Char} {d : Nat} (h : digitValue? c = some d) : d < 10 := by
  obtain ⟨_, _, hz⟩ := List.exists_of_findSome?_eq_some h
  split at hz
  · simp only [Option.some.injEq] at hz; omega
  · contradiction

end NotationCalculator.Text
