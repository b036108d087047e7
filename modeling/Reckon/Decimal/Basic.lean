import Reckon.Binary64.Rounding

/-!
# Decimals

A decimal is a coefficient times a power of ten.  `toBinary64` rounds it to the format.  Powers of
ten far outside the format are settled by their size alone: `coefficient * 10 ^ exponent` lies
beyond `2 ^ 1024` once the exponent passes 310, and below half a quantum once the power of ten
outweighs the bits of the coefficient by more than 1080.
-/

namespace Reckon

/-- `coefficient * 10 ^ exponent`. -/
structure Decimal where
  coefficient : Nat
  exponent : Int
  deriving DecidableEq

namespace Decimal

/-- The number of quanta as a fraction. -/
def ratio (d : Decimal) : Nat × Nat :=
  (d.coefficient * tenPow d.exponent.toNat * quantaPerOne, tenPow (-d.exponent).toNat)

/-- The nearest count of quanta with 53 significant bits. -/
def quanta (d : Decimal) : Nat := nearest d.ratio.1 d.ratio.2

/-- Beyond `2 ^ 1024`, judged by the exponent. -/
def isHuge (d : Decimal) : Bool := d.coefficient != 0 && 310 < d.exponent

/-- Below half a quantum, judged by the exponent. -/
def isTiny (d : Decimal) : Bool :=
  d.coefficient == 0 || (d.coefficient.log2 + 1081 : Int) < 3 * -d.exponent

/-- The decimal with the given sign, rounded to the format. -/
def toBinary64 (negative : Bool) (d : Decimal) : Binary64 :=
  if d.isHuge then .infinite negative
  else if d.isTiny then .zero negative
  else .ofRatio negative d.ratio.1 d.ratio.2

end Decimal

end Reckon
