import Reckon.Binary64.Rounding

/-!
# Sums, products, quotients and remainders

Sums, products and quotients of finite numbers are the exact results on quanta, rounded once.  What
remains is the sign of a zero and the infinities.  The remainder `mod` is an exact remainder and, if
its sign is not that of the divisor, one sum.
-/

namespace Reckon.Binary64

/-- Sum.  A zero sum is negative only when both terms are. -/
def add : Binary64 → Binary64 → Binary64
  | .finite s m _, .finite t n _ =>
    let sum := signed s m + signed t n
    if sum = 0 then zero (s && t) else ofQuanta sum
  | .infinite s, .infinite t => if s = t then .infinite s else .nan
  | .infinite s, .finite .. => .infinite s
  | .finite .., .infinite t => .infinite t
  | _, _ => .nan

/-- Difference. -/
def sub (x y : Binary64) : Binary64 := x.add y.neg

/-- Product. -/
def mul : Binary64 → Binary64 → Binary64
  | .finite s m _, .finite t n _ => ofRatio (s != t) (m * n) quantaPerOne
  | .infinite s, .infinite t => .infinite (s != t)
  | .infinite s, .finite t n _ => if n = 0 then .nan else .infinite (s != t)
  | .finite s m _, .infinite t => if m = 0 then .nan else .infinite (s != t)
  | _, _ => .nan

/-- Quotient. -/
def div : Binary64 → Binary64 → Binary64
  | .finite s m _, .finite t n _ =>
    if n = 0 then if m = 0 then .nan else .infinite (s != t)
    else ofRatio (s != t) (m * quantaPerOne) n
  | .infinite s, .finite t _ _ => .infinite (s != t)
  | .finite s _ _, .infinite t => zero (s != t)
  | _, _ => .nan

/-- Remainder of the quotient rounded towards zero, with the sign of the dividend.  It is exact. -/
def rem : Binary64 → Binary64 → Binary64
  | .finite s m hm, .finite _ n hn => if n = 0 then .nan else .finite s (m % n) (fits_mod hm hn)
  | .finite s m hm, .infinite _ => .finite s m hm
  | _, _ => .nan

/-- Remainder of the quotient rounded down.  To a remainder that lies on the other side of zero the
divisor is added, and a zero takes the divisor's sign. -/
def mod (x y : Binary64) : Binary64 :=
  let rest := x.rem y
  if rest.isZero then zero (y.less (zero false))
  else if rest.less (zero false) = y.less (zero false) then rest
  else rest.add y

end Reckon.Binary64
