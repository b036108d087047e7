import Reckon.Scale

/-!
# Binary64 numbers

A finite number is a whole number of *quanta*, the quantum being `2 ^ -1074`, the least positive
number of the format.  A count of quanta fits the format when it has at most 53 significant bits
and stays below `2 ^ 1024`, that is below `2 ^ 2098` quanta.  Sums, products, quotients and
remainders of finite numbers are then computed on whole numbers and rounded once.

Besides the finite numbers there are two infinities and one undefined number, and zero has a sign.
-/

namespace Reckon

/-- One is `2 ^ oneExponent` quanta. -/
def oneExponent : Nat := 1074

/-- The first power of two beyond the format is `2 ^ topExponent` quanta. -/
def topExponent : Nat := 2098

/-- The number of quanta in one. -/
def quantaPerOne : Nat := twoPow oneExponent

/-- The number of quanta in `2 ^ 1024`, where the format ends. -/
def ceiling : Nat := twoPow topExponent

/-- `n` quanta fit the format: 53 significant bits, below `2 ^ 1024`. -/
def Fits (n : Nat) : Prop := n < ceiling ∧ twoPow (n.log2 - 52) ∣ n

instance (n : Nat) : Decidable (Fits n) := inferInstanceAs (Decidable (_ ∧ _))

theorem fits_zero : Fits 0 := ⟨twoPow_pos topExponent, Nat.dvd_zero _⟩

theorem fits_twoPow {k : Nat} (h : k < topExponent) : Fits (twoPow k) := by
  refine ⟨twoPow_lt_twoPow h, ?_⟩
  rw [log2_twoPow]
  exact twoPow_dvd_twoPow (Nat.sub_le k 52)

/-- A binary64 number. -/
inductive Binary64 where
  | nan
  | infinite (negative : Bool)
  | finite (negative : Bool) (quanta : Nat) (fits : Fits quanta)
  deriving DecidableEq

namespace Binary64

/-- Zero of either sign. -/
def zero (negative : Bool) : Binary64 := .finite negative 0 fits_zero

/-- One. -/
def one : Binary64 :=
  .finite false quantaPerOne (fits_twoPow (show oneExponent < topExponent by decide))

instance : Inhabited Binary64 := ⟨zero false⟩

/-- The signed number of quanta of a sign and a magnitude. -/
def signed (negative : Bool) (quanta : Nat) : Int := if negative then -quanta else quanta

/-- Neither infinite nor undefined. -/
def isFinite : Binary64 → Bool
  | .finite .. => true
  | _ => false

/-- A zero of either sign. -/
def isZero : Binary64 → Bool
  | .finite _ n _ => n == 0
  | _ => false

/-- A finite whole number. -/
def isWhole : Binary64 → Bool
  | .finite _ n _ => n % quantaPerOne == 0
  | _ => false

/-- An odd whole number. -/
def isOdd : Binary64 → Bool
  | .finite _ n _ => n % quantaPerOne == 0 && n / quantaPerOne % 2 == 1
  | _ => false

/-- The number with its sign turned; the undefined number stays. -/
def neg : Binary64 → Binary64
  | .nan => .nan
  | .infinite s => .infinite (!s)
  | .finite s n h => .finite (!s) n h

/-! ## Order

The undefined number is neither equal to nor below anything, and the two zeros are equal. -/

/-- Equality of numbers. -/
def equal : Binary64 → Binary64 → Bool
  | .infinite s, .infinite t => s == t
  | .finite s m _, .finite t n _ => signed s m == signed t n
  | _, _ => false

/-- Strict order of numbers. -/
def less : Binary64 → Binary64 → Bool
  | .infinite s, .infinite t => s && !t
  | .infinite s, .finite .. => s
  | .finite .., .infinite t => !t
  | .finite s m _, .finite t n _ => signed s m < signed t n
  | _, _ => false

/-- Less or equal. -/
def lessEqual (x y : Binary64) : Bool := x.less y || x.equal y

/-- All numbers with a minus sign are below zero but zero itself. -/
theorem less_zero {n : Nat} (negative : Bool) (fits : Fits n) :
    (finite negative n fits).less (.zero false) = (negative && n != 0) := by
  have hless : (finite negative n fits).less (.zero false) = decide (signed negative n < 0) := rfl
  rw [hless, Bool.eq_iff_iff]
  cases negative with
  | false => simp [signed]
  | true => simp [signed, Nat.pos_iff_ne_zero]

@[simp] theorem neg_neg (x : Binary64) : x.neg.neg = x := by
  cases x <;> simp [neg]

@[simp] theorem isFinite_neg (x : Binary64) : x.neg.isFinite = x.isFinite := by
  cases x <;> rfl

end Binary64

end Reckon
