import Reckon.Decimal.Basic
import Reckon.Text.Blank

/-!
# Numerals

The texts that are read as numbers: blanks around, an optional sign, then digits of any script with
an optional point and exponent, or a word for infinity or the undefined number.  A single
underscore may stand between two digits.  Whole numerals are read for themselves.
-/

namespace Reckon.Numeral

/-- A digit of any script becomes its ASCII digit; other characters stay. -/
def asciiDigit (c : Char) : Char := ((digitValue? c).map Nat.digitChar).getD c

/-- Text without the blanks at both ends. -/
def trim (cs : List Char) : List Char :=
  ((cs.dropWhile isBlank).reverse.dropWhile isBlank).reverse

/-- The text without its underscores, each of which must stand between two digits. -/
def joinDigits : (afterDigit : Bool) → List Char → Option (List Char)
  | _, [] => some []
  | afterDigit, c :: rest =>
    if c = '_' then
      if afterDigit && rest.head?.any Char.isDigit then joinDigits false rest else none
    else (joinDigits c.isDigit rest).map (c :: ·)

/-- Blanks taken off, digits made ASCII, underscores taken out. -/
def prepare (s : String) : Option (List Char) :=
  joinDigits false ((trim s.toList).map asciiDigit)

/-- An optional sign, and whether it is a minus. -/
def sign : List Char → Bool × List Char
  | '-' :: rest => (true, rest)
  | '+' :: rest => (false, rest)
  | cs => (false, cs)

/-- A text of one or more digits as a number. -/
def natural? (cs : List Char) : Option Nat :=
  if !cs.isEmpty && cs.all Char.isDigit then some (Nat.ofDigitChars 10 cs 0) else none

/-- The exponent at the end of a numeral: nothing, or a mark, an optional sign and digits. -/
def exponent? : List Char → Option Int
  | [] => some 0
  | c :: rest =>
    if c = 'e' ∨ c = 'E' then
      (natural? (sign rest).2).map fun n => if (sign rest).1 then -n else n
    else none

/-- Digits with an optional point, at least one in all, and an optional exponent. -/
def decimal? (cs : List Char) : Option Decimal :=
  let whole := cs.takeWhile Char.isDigit
  let rest := cs.dropWhile Char.isDigit
  let (fraction, rest) := match rest with
    | '.' :: rest => (rest.takeWhile Char.isDigit, rest.dropWhile Char.isDigit)
    | rest => ([], rest)
  if whole.isEmpty && fraction.isEmpty then none
  else (exponent? rest).map fun e =>
    ⟨Nat.ofDigitChars 10 (whole ++ fraction) 0, e - fraction.length⟩

/-- The number of a numeral without its sign. -/
def unsigned? (negative : Bool) (cs : List Char) : Option Binary64 :=
  let word := String.ofList (cs.map Char.toLower)
  if word = "inf" ∨ word = "infinity" then some (.infinite negative)
  else if word = "nan" then some .nan
  else (decimal? cs).map (·.toBinary64 negative)

/-- The number that a text stands for. -/
def toBinary64? (s : String) : Option Binary64 := do
  let cs ← prepare s
  unsigned? (sign cs).1 (sign cs).2

/-- The integer that a text stands for. -/
def toInt? (s : String) : Option Int := do
  let cs ← prepare s
  if (sign cs).2.length ≤ maxDigits then
    (natural? (sign cs).2).map fun n => if (sign cs).1 then -n else n
  else none

end Reckon.Numeral
