import Reckon.Decimal.Basic

/-!
# The shortest decimal

`Decimal.shortest n` is the decimal with the fewest digits that reads back as `n` quanta.  Going
up from one digit to seventeen, the two neighbours of the number on the grid of that many digits
are tried, the nearer first; half-way between two the even one counts as nearer.  The exact
expansion stands behind the search, so that the result always reads back.
-/

namespace Reckon.Decimal

/-- The exact expansion of a count of quanta. -/
def exact (n : Nat) : Decimal := ⟨n * fivePow oneExponent, -oneExponent⟩

/-- The power of ten of the leading digit of a positive count of quanta.  No positive count is
below `10 ^ -324`, so the digits of its multiple by `10 ^ 324` can be counted. -/
def leadingExponent (n : Nat) : Int :=
  ((Nat.toDigits 10 (n * tenPow 324 / quantaPerOne)).length : Int) - 325

/-- The two multiples of `10 ^ e` about `n` quanta, the nearer first. -/
def neighbours (n : Nat) (e : Int) : List Decimal :=
  let p := n * tenPow (-e).toNat
  let q := quantaPerOne * tenPow e.toNat
  let near := roundEven p q
  let far := if near = p / q then near + 1 else p / q
  [⟨near, e⟩, ⟨far, e⟩]

/-- The decimals of at most seventeen digits about `n` quanta, those of fewer digits first. -/
def candidates (n : Nat) : List Decimal :=
  let top := leadingExponent n
  (List.range 17).flatMap fun (k : Nat) => neighbours n (top - k)

/-- The decimal with the fewest digits that reads back as `n` quanta. -/
def shortest (n : Nat) : Decimal :=
  ((candidates n).find? fun d => d.quanta == n).getD (exact n)

end Reckon.Decimal
