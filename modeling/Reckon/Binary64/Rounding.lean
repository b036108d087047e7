import Reckon.Binary64.Basic

/-!
# Rounding to the format

`nearest p q` is the count of quanta nearest to `p / q` among those with 53 significant bits, a
half going to the even neighbour.  `ofRatio` makes it a number: a count that reaches `2 ^ 1024` is
an infinity.  Every other operation on numbers ends in `ofRatio`.
-/

namespace Reckon

/-- The whole number nearest to `p / q`, a half going to the even neighbour. -/
def roundEven (p q : Nat) : Nat :=
  if 2 * (p % q) < q then p / q
  else if q < 2 * (p % q) then p / q + 1
  else p / q + p / q % 2

theorem roundEven_le (p q : Nat) : roundEven p q ≤ p / q + 1 := by
  unfold roundEven
  split
  · omega
  · split <;> omega

theorem le_roundEven (p q : Nat) : p / q ≤ roundEven p q := by
  unfold roundEven
  split
  · omega
  · split <;> omega

/-- The power of two between neighbouring counts of 53 bits about `n`. -/
def spacing (n : Nat) : Nat := twoPow (n.log2 - 52)

theorem spacing_pos (n : Nat) : 0 < spacing n := twoPow_pos _

theorem spacing_dvd_spacing {m n : Nat} (h : m.log2 ≤ n.log2) : spacing m ∣ spacing n :=
  twoPow_dvd_twoPow (by omega)

/-- The count of quanta with 53 significant bits nearest to `p / q`. -/
def nearest (p q : Nat) : Nat :=
  roundEven p (q * spacing (p / q)) * spacing (p / q)

theorem div_spacing_lt (n : Nat) : n / spacing n < twoPow 53 := by
  rw [Nat.div_lt_iff_lt_mul (spacing_pos n), spacing, ← twoPow_add]
  exact Nat.lt_of_lt_of_le (lt_twoPow_log2_succ n) (twoPow_le_twoPow (by omega))

/-- A multiple of `2 ^ e` that is at most `2 ^ 53` times it has 53 significant bits. -/
theorem spacing_dvd_mul {m e : Nat} (h : m ≤ twoPow 53) :
    spacing (m * twoPow e) ∣ m * twoPow e := by
  rcases Nat.lt_or_eq_of_le h with hlt | rfl
  · refine Nat.dvd_trans (twoPow_dvd_twoPow ?_) (Nat.dvd_mul_left _ _)
    by_cases h0 : m * twoPow e = 0
    · simp [h0]
    · have : m * twoPow e < twoPow (53 + e) := by
        rw [twoPow_add]
        exact Nat.mul_lt_mul_of_pos_right hlt (twoPow_pos e)
      have := log2_lt_of_lt_twoPow h0 this
      omega
  · rw [← twoPow_add, spacing, log2_twoPow]
    exact twoPow_dvd_twoPow (by omega)

theorem spacing_dvd_nearest (p q : Nat) : spacing (nearest p q) ∣ nearest p q := by
  refine spacing_dvd_mul (Nat.le_trans (roundEven_le _ _) ?_)
  rw [← Nat.div_div_eq_div_mul]
  exact div_spacing_lt (p / q)

theorem fits_nearest {p q : Nat} (h : nearest p q < ceiling) : Fits (nearest p q) :=
  ⟨h, spacing_dvd_nearest p q⟩

/-- The remainder of two counts of 53 significant bits has no more of them. -/
theorem fits_mod {m n : Nat} (hm : Fits m) (hn : Fits n) : Fits (m % n) := by
  rcases Nat.eq_zero_or_pos n with rfl | hpos
  · rwa [Nat.mod_zero]
  rcases Nat.lt_or_ge m n with hlt | hle
  · rwa [Nat.mod_eq_of_lt hlt]
  have hrest : m % n < n := Nat.mod_lt m hpos
  have hdvd : spacing n ∣ m := Nat.dvd_trans (spacing_dvd_spacing (log2_mono hle)) hm.2
  have hsmaller : spacing (m % n) ∣ spacing n :=
    spacing_dvd_spacing (log2_mono (Nat.le_of_lt hrest))
  exact ⟨Nat.lt_trans hrest hn.1, Nat.dvd_trans hsmaller ((Nat.dvd_mod_iff hn.2).2 hdvd)⟩

namespace Binary64

/-- The number nearest to `p / q` quanta with the given sign. -/
def ofRatio (negative : Bool) (p q : Nat) : Binary64 :=
  if h : nearest p q < ceiling then .finite negative (nearest p q) (fits_nearest h)
  else .infinite negative

/-- The number nearest to a signed count of quanta. -/
def ofQuanta (z : Int) : Binary64 := ofRatio (z < 0) z.natAbs 1

end Binary64

end Reckon
