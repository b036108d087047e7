import Reckon.Text.Printable

/-!
# Quoted text

Texts in messages stand between single quotes, or between double quotes when the text holds a
single quote and no double one.  The backslash and the quote in use are escaped, and so is every
character that is not printable: newline, return and tab by letter, others by their code.
-/

namespace Reckon.Quoted

/-- The quote to put around a text. -/
def mark (cs : List Char) : Char :=
  if cs.contains '\'' && !cs.contains '"' then '"' else '\''

/-- A code in lower-case hexadecimal with at least `width` digits. -/
def hex (width n : Nat) : List Char :=
  let digits := Nat.toDigits 16 n
  List.replicate (width - digits.length) '0' ++ digits

/-- A character inside quotes. -/
def escape (quote c : Char) : List Char :=
  if c = '\\' ∨ c = quote then ['\\', c]
  else if c = '\n' then ['\\', 'n']
  else if c = '\r' then ['\\', 'r']
  else if c = '\t' then ['\\', 't']
  else if isPrintable c then [c]
  else if c.toNat < 0x100 then '\\' :: 'x' :: hex 2 c.toNat
  else if c.toNat < 0x10000 then '\\' :: 'u' :: hex 4 c.toNat
  else '\\' :: 'U' :: hex 8 c.toNat

end Reckon.Quoted

namespace Reckon

/-- A text between quotes. -/
def quoted (s : String) : String :=
  let quote := Quoted.mark s.toList
  .ofList (quote :: s.toList.flatMap (Quoted.escape quote) ++ [quote])

end Reckon
