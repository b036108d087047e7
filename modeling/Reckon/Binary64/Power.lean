import Reckon.Binary64.Rounding

/-!
# Powers

`pow` settles zeros, infinities and signs first; what is left is a positive base and a finite
exponent.  That power is `exp (y * ln x)` in fixed point with `scaleBits` fractional bits, kept to
129 significant bits and then rounded to the format.  The intermediate step makes a power that is
exactly a number of the format, or exactly half-way between two, come out exact before the last
rounding.

The standard leaves the rounding of powers to the platform, whose last bit may differ from that of
`powQuanta`.  What is proved of powers holds for every result it might give: the proofs use the
cases that `pow` settles first, and of `powQuanta` nothing.
-/

namespace Reckon.Binary64

/-! ## Fixed point -/

/-- The number of fractional bits of a fixed-point number. -/
def scaleBits : Nat := 320

/-- One in fixed point. -/
def scale : Nat := twoPow scaleBits

/-- `power / k + power * square / (k + 2) + …`, with the given number of terms. -/
def atanhTerms (square : Nat) : Nat → Nat → Nat → Nat
  | 0, _, _ => 0
  | terms + 1, power, k =>
    power / k + atanhTerms square terms (power * square / scale) (k + 2)

/-- The inverse hyperbolic tangent of `p / q` in fixed point, for `p / q` at most a third. -/
def atanh (p q : Nat) : Nat :=
  let z := p * scale / q
  atanhTerms (z * z / scale) 110 z 1

/-- The natural logarithm of two in fixed point. -/
def lnTwo : Nat := 2 * atanh 1 3

/-- The natural logarithm of a positive count of quanta in fixed point. -/
def ln (quanta : Nat) : Int :=
  let top := twoPow quanta.log2
  ((quanta.log2 : Int) - oneExponent) * lnTwo + 2 * atanh (quanta - top) (quanta + top)

/-- `term + term * r / k + …`, with the given number of terms. -/
def expTerms (r : Nat) : Nat → Nat → Nat → Nat
  | 0, _, _ => 0
  | terms + 1, term, k => term + expTerms r terms (term * r / (scale * k)) (k + 1)

/-- The exponential of a fixed-point number below `lnTwo`. -/
def exp (r : Nat) : Nat := expTerms r 90 scale 1

/-! ## The power of finite numbers -/

/-- `w * 2 ^ e` quanta with the given sign, rounded to the format. -/
def ofScaled (negative : Bool) (w : Nat) (e : Int) : Binary64 :=
  ofRatio negative (w * twoPow e.toNat) (twoPow (-e).toNat)

/-- A positive count of quanta raised to a signed count of quanta. -/
def powQuanta (negative : Bool) (base : Nat) (exponent : Int) : Binary64 :=
  let product := (ln base * exponent).fdiv quantaPerOne
  let binary := product.fdiv lnTwo
  if topExponent ≤ binary then .infinite negative
  else if binary < -(topExponent : Int) then zero negative
  else
    let fraction := exp (product - binary * lnTwo).toNat
    ofScaled negative (roundEven fraction (twoPow (scaleBits - 128)))
      (binary - 128 + oneExponent)

/-- Power.  A negative base needs a whole exponent, and keeps its sign under an odd one. -/
def pow (x y : Binary64) : Binary64 :=
  if y.isZero || x == one then one
  else
    match x, y with
    | .nan, _ | _, .nan => .nan
    | .infinite _, .infinite t => if t then zero false else .infinite false
    | .infinite s, .finite t _ _ => if t then zero (s && y.isOdd) else .infinite (s && y.isOdd)
    | .finite _ m _, .infinite t =>
      if m = quantaPerOne then one
      else if t == (m < quantaPerOne : Bool) then .infinite false
      else zero false
    | .finite s m _, .finite t n _ =>
      if m = 0 then if t then .infinite (s && y.isOdd) else zero (s && y.isOdd)
      else if s && !y.isWhole then .nan
      else powQuanta (s && y.isOdd) m (signed t n)

end Reckon.Binary64
