import Reckon.Decimal.Shortest

/-!
# Number text

`Binary64.text` writes the shortest decimal of a number: positionally when the leading digit stands
between `10 ^ -4` and `10 ^ 15`, with an exponent otherwise.  `Binary64.display` writes a whole
number as an integer with all its digits, and any other number as its text.
-/

namespace Reckon

/-- The digits of a coefficient without the zeros at its end. -/
def Decimal.significantDigits (d : Decimal) : List Char :=
  ((Nat.toDigits 10 d.coefficient).reverse.dropWhile (· == '0')).reverse

/-- The power of ten of the leading digit of a decimal. -/
def Decimal.topExponent (d : Decimal) : Int :=
  ((Nat.toDigits 10 d.coefficient).length : Int) - 1 + d.exponent

namespace Layout

/-- Digits in their places, with a digit on each side of the point. -/
def positional (digits : List Char) (top : Int) : List Char :=
  if top < 0 then
    '0' :: '.' :: List.replicate (-top - 1).toNat '0' ++ digits
  else
    let whole := digits.take (top.toNat + 1)
    let rest := digits.drop (top.toNat + 1)
    whole ++ List.replicate (top.toNat + 1 - whole.length) '0' ++
      '.' :: (if rest.isEmpty then ['0'] else rest)

/-- An exponent with its sign and at least two digits. -/
def exponent (top : Int) : List Char :=
  let digits := Nat.toDigits 10 top.natAbs
  (if top < 0 then '-' else '+') :: List.replicate (2 - digits.length) '0' ++ digits

/-- One digit before the point, and an exponent. -/
def scientific (digits : List Char) (top : Int) : List Char :=
  digits.take 1 ++ (if digits.length ≤ 1 then [] else '.' :: digits.drop 1) ++ 'e' :: exponent top

end Layout

/-- The text of a decimal: positional from `10 ^ -4` up to `10 ^ 16`, else with an exponent. -/
def Decimal.text (d : Decimal) : List Char :=
  if -4 ≤ d.topExponent ∧ d.topExponent < 16 then
    Layout.positional d.significantDigits d.topExponent
  else
    Layout.scientific d.significantDigits d.topExponent

namespace Binary64

/-- A text with a minus sign before it if negative. -/
def withSign (negative : Bool) (digits : List Char) : String :=
  .ofList (if negative then '-' :: digits else digits)

/-- The text of a number. -/
def text : Binary64 → String
  | .nan => "nan"
  | .infinite s => withSign s ['i', 'n', 'f']
  | .finite s n _ =>
    if n = 0 then withSign s ['0', '.', '0'] else withSign s (Decimal.shortest n).text

/-- The text of a number, a whole one being written as an integer. -/
def display (x : Binary64) : String :=
  match x with
  | .finite s n _ =>
    if n % quantaPerOne = 0 then withSign (s && n != 0) (Nat.toDigits 10 (n / quantaPerOne))
    else x.text
  | _ => x.text

end Binary64

end Reckon
