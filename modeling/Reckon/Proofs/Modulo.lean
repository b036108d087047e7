import Reckon.Operator
import Reckon.Proofs.Shortest

/-!
# Floor modulo

`a % b` is `a - b * ⌊a / b⌋`, rounded once.  It is computed as a remainder with the sign of `a`,
which is exact (`fits_mod`), to which `b` is added if the signs differ.  Either way it is the exact
floor modulo (`Binary64.remainder_eq`) rounded at most once, in that sum: `Binary64.mod_eq`.  The
exact result has the sign of `b` and is less than `b` in magnitude (`Binary64.signed_fmod`), and
rounding goes no further than `b` itself: `applyText_mod`.
-/

namespace Reckon

theorem nearest_one_of_dvd {n : ℕ} (h : spacing n ∣ n) : nearest n 1 = n := by
  simpa using nearest_mul_self h Nat.one_pos

namespace Binary64

/-! ## Numbers as fractions -/

/-- The fraction that a finite number is. -/
def value : Binary64 → ℚ
  | .finite s n _ => signed s n / quantaPerOne
  | _ => 0

/-- Whether the last of the 53 significant bits of a number is zero. -/
def IsEven : Binary64 → Prop
  | .finite _ n _ => Even (n / spacing n)
  | _ => False

/-- A finite number is the nearest to a fraction, and it is even if another is as near. -/
def IsNearest (v : ℚ) (x : Binary64) : Prop :=
  x.isFinite ∧ ∀ y : Binary64, y.isFinite → |v - x.value| ≤ |v - y.value| ∧
    (y.value ≠ x.value → |v - y.value| = |v - x.value| → x.IsEven)

section

variable {s t : Bool} {m n : ℕ}

theorem cast_signed (s : Bool) (n : ℕ) : (signed s n : ℚ) = if s then -(n : ℚ) else n := by
  cases s <;> simp [signed]

theorem dist_signed_of_same (h : s = t ∨ n = 0) :
    |(signed s m : ℚ) - signed t n| = |(m : ℚ) - n| := by
  have hneg : |-(m : ℚ) + n| = |(m : ℚ) - n| := by rw [neg_add_eq_sub, abs_sub_comm]
  obtain rfl | rfl := h
  · cases s <;> simp [cast_signed, hneg]
  · cases s <;> simp [signed]

/-- A number of the other sign is farther away than zero. -/
theorem lt_dist_signed (h : s ≠ t) (hn : 0 < n) : (m : ℚ) < |(signed s m : ℚ) - signed t n| := by
  have hpos : (0 : ℚ) < n := Nat.cast_pos.2 hn
  cases s <;> cases t <;> simp only [cast_signed, ne_eq, not_true_eq_false, if_true] at h ⊢
  · exact lt_of_lt_of_le (by simp; linarith) (le_abs_self _)
  · exact lt_of_lt_of_le (by simp; linarith) (neg_le_abs _)

end

theorem dist_value (a b : ℚ) : |a / quantaPerOne - b / quantaPerOne| = |a - b| / quantaPerOne := by
  rw [← sub_div, abs_div, abs_of_pos cast_quantaPerOne_pos]

/-- A count rounded to 53 significant bits gives the nearest number. -/
theorem isNearest_signed {n : ℕ} (fits : Fits (nearest n 1)) (s : Bool) :
    IsNearest (signed s n / quantaPerOne) (.finite s (nearest n 1) fits) := by
  refine ⟨rfl, fun y hy => ?_⟩
  cases y with
  | nan => cases hy
  | infinite => cases hy
  | finite t k hk =>
    have hle {m : ℕ} (hm : Fits m) : |(n : ℚ) - nearest n 1| ≤ |(n : ℚ) - m| := by
      simpa using dist_nearest_le (p := n) Nat.one_pos hm.2
    have hown : |(signed s n : ℚ) - signed s (nearest n 1)| = |(n : ℚ) - nearest n 1| :=
      dist_signed_of_same (.inl rfl)
    simp only [value, dist_value, hown, div_left_inj' cast_quantaPerOne_pos.ne', ne_eq, IsEven,
      div_le_div_iff_of_pos_right cast_quantaPerOne_pos, Int.cast_inj]
    by_cases hsame : s = t ∨ k = 0
    · rw [dist_signed_of_same hsame]
      refine ⟨hle hk, fun hne htie => even_nearest_of_tie Nat.one_pos hk.2 ?_ (by simpa using htie)⟩
      rintro rfl
      obtain rfl | hzero := hsame
      · exact hne rfl
      · simp [hzero, signed] at hne
    · push Not at hsame
      have hzero : |(n : ℚ) - nearest n 1| ≤ n := by simpa using hle fits_zero
      have hfar : (n : ℚ) < _ := lt_dist_signed hsame.1 (Nat.pos_of_ne_zero hsame.2)
      exact ⟨(hzero.trans_lt hfar).le, fun _ htie => absurd htie (hzero.trans_lt hfar).ne'⟩

/-! ## Remainders -/

/-- What is left of one number when another has been taken off as often as the quotient rounded down
says. -/
def floorMod (a b : Binary64) : ℚ := a.value - b.value * ⌊a.value / b.value⌋

/-- The number of quanta that are left, without their sign. -/
def remainder (s : Bool) (m : ℕ) (t : Bool) (n : ℕ) : ℕ := (signed (s != t) m % n).toNat

section

variable {s t : Bool} {m n : ℕ}

theorem cast_remainder (hn : 0 < n) : (remainder s m t n : ℤ) = signed (s != t) m % n :=
  Int.toNat_of_nonneg (Int.emod_nonneg _ (by omega))

theorem remainder_lt (hn : 0 < n) : remainder s m t n < n := by
  have hlt := Int.emod_lt_of_pos (signed (s != t) m) (show (0 : ℤ) < n by omega)
  rw [← cast_remainder hn] at hlt
  omega

/-- Of the remainder without signs, what is left is the same or what it lacks of the divisor. -/
theorem remainder_eq :
    remainder s m t n = if s = t ∨ m % n = 0 then m % n else n - m % n := by
  by_cases h : s = t
  · rw [if_pos (.inl h), remainder, h, bne_self_eq_false]
    exact Int.toNat_natCast (m % n)
  · have hsigned : signed (s != t) m = -m := by simp [bne_iff_ne.2 h, signed]
    have hdvd : (n : ℤ) ∣ m ↔ m % n = 0 := by
      rw [Int.natCast_dvd_natCast, Nat.dvd_iff_mod_eq_zero]
    have hcast : (m : ℤ) % n = (m % n : ℕ) := rfl
    simp only [remainder, hsigned, Int.neg_emod, hdvd, h, false_or]
    by_cases hzero : m % n = 0
    · rw [if_pos hzero, if_pos hzero, hzero, Int.toNat_zero]
    · rw [if_neg hzero, if_neg hzero, Int.natAbs_natCast, hcast, Int.toNat_sub]

theorem signed_not (s : Bool) (m : ℕ) : signed (!s) m = -signed s m := by
  cases s <;> simp [signed]

theorem signed_fmod (hn : 0 < n) :
    (signed s m).fmod (signed t n) = signed t (remainder s m t n) := by
  have hpos (x : ℤ) : x.fmod n = x % n := Int.fmod_eq_emod_of_nonneg x (by omega)
  cases t with
  | false => simpa [signed, cast_remainder hn] using hpos (signed s m)
  | true =>
    have hrest := hpos (signed (!s) m)
    have hneg : signed s m = -signed (!s) m := by rw [signed_not, Int.neg_neg]
    rw [hneg, show signed true n = -n from rfl, Int.neg_fmod_neg, hrest]
    simp [signed, cast_remainder hn]

theorem floor_div (a b : ℤ) : ⌊(a : ℚ) / b⌋ = a.fdiv b := by
  have hpos (a : ℤ) (n : ℕ) : ⌊(a : ℚ) / (n : ℤ)⌋ = a.fdiv n := by
    rw [Int.cast_natCast, Rat.floor_intCast_div_natCast, Int.fdiv_eq_ediv_of_nonneg _ (by omega)]
  obtain ⟨n, rfl | rfl⟩ := b.eq_nat_or_neg
  · exact hpos a n
  · have hneg := hpos (-a) n
    rw [← Int.neg_fdiv_neg, Int.neg_neg, ← hneg]
    push_cast
    rw [neg_div, div_neg]

theorem floorMod_eq (hm : Fits m) (hn : Fits n) (hpos : 0 < n) :
    floorMod (finite s m hm) (finite t n hn) =
      signed t (remainder s m t n) / quantaPerOne := by
  have hquotient : (finite s m hm).value / (finite t n hn).value = (signed s m : ℚ) / signed t n :=
    div_div_div_cancel_right₀ cast_quantaPerOne_pos.ne' _ _
  rw [floorMod, hquotient, floor_div, ← signed_fmod hpos, Int.fmod_def, value, value]
  push_cast
  ring

theorem nearest_remainder_le (hn : Fits n) (hpos : 0 < n) : nearest (remainder s m t n) 1 ≤ n := by
  have hmono : nearest (remainder s m t n) 1 ≤ nearest n 1 := by
    refine nearest_mono Nat.one_pos Nat.one_pos ?_
    simpa using (remainder_lt hpos).le
  rwa [nearest_one_of_dvd hn.2] at hmono

theorem fits_nearest_remainder (s : Bool) (m : ℕ) (t : Bool) (hn : Fits n) (hpos : 0 < n) :
    Fits (nearest (remainder s m t n) 1) :=
  fits_nearest ((nearest_remainder_le hn hpos).trans_lt hn.1)

theorem less_zero_of_pos (hm : Fits m) (hpos : 0 < m) :
    (finite s m hm).less (zero false) = s := by
  simp [less_zero, hpos.ne']

/-- A number is what its signed count of quanta is rounded to. -/
theorem ofQuanta_signed (t : Bool) (hm : Fits (nearest m 1)) (hpos : 0 < m) :
    ofQuanta (signed t m) = .finite t (nearest m 1) hm := by
  have hsign : decide (signed t m < 0) = t ∧ (signed t m).natAbs = m := by
    cases t <;> simp [signed]
    omega
  rw [ofQuanta, hsign.1, hsign.2]
  exact ofRatio_of_nearest rfl hm t

/-- The result is the remainder rounded, with the sign of the divisor. -/
theorem mod_eq (hm : Fits m) (hn : Fits n) (hpos : 0 < n) :
    mod (.finite s m hm) (.finite t n hn) =
      .finite t (nearest (remainder s m t n) 1) (fits_nearest_remainder s m t hn hpos) := by
  have hrest : m % n < n := Nat.mod_lt m hpos
  have hexact : nearest (m % n) 1 = m % n := nearest_one_of_dvd (fits_mod hm hn).2
  simp only [mod, rem, hpos.ne', if_false, isZero, beq_iff_eq, less_zero_of_pos hn hpos,
    remainder_eq]
  by_cases hzero : m % n = 0
  · simp only [hzero, or_true, if_true] at hexact ⊢
    simp only [hexact, zero]
  · have hsome : 0 < m % n := Nat.pos_of_ne_zero hzero
    simp only [hzero, or_false, if_false, less_zero_of_pos (fits_mod hm hn) hsome]
    by_cases hsame : s = t
    · simp only [hsame, if_true, hexact]
    · have hsum : signed s (m % n) + signed t n = signed t (n - m % n) := by
        cases s <;> cases t <;> simp_all [signed] <;> omega
      have hleft : 0 < n - m % n := by omega
      have hne : signed t (n - m % n) ≠ 0 := by
        rw [signed]
        split <;> omega
      simp only [hsame, if_false, add, hsum, hne]
      exact ofQuanta_signed t _ hleft

/-- Nothing is rounded unless the signs differ. -/
theorem nearest_remainder (hm : Fits m) (hn : Fits n) (h : s = t ∨ m = 0) :
    nearest (remainder s m t n) 1 = remainder s m t n := by
  apply nearest_one_of_dvd
  obtain rfl | rfl := h
  · rw [remainder_eq, if_pos (.inl rfl)]
    exact (fits_mod hm hn).2
  · have hzero : remainder s 0 t n = 0 := by simp [remainder, signed]
    rw [hzero]
    exact fits_zero.2

end

/-! ## Signs -/

section

variable {s t : Bool} {m n : ℕ} {hm : Fits m} {hn : Fits n}

theorem value_eq_zero (h : Fits 0) : (finite s 0 h).value = 0 := by
  have hzero : (signed s 0 : ℚ) = 0 := by cases s <;> rfl
  rw [value, hzero, zero_div]

theorem abs_value : |(finite s n hn).value| = n / quantaPerOne := by
  have habs : |(signed s n : ℚ)| = n := by cases s <;> simp [signed]
  rw [value, abs_div, habs, abs_of_pos cast_quantaPerOne_pos]

theorem sign_value (hpos : 0 < n) : SignType.sign (finite s n hn).value = if s then -1 else 1 := by
  have hvalue : (0 : ℚ) < n / quantaPerOne := div_pos (Nat.cast_pos.2 hpos) cast_quantaPerOne_pos
  rw [value, cast_signed]
  cases s with
  | false => exact sign_pos hvalue
  | true =>
    rw [if_pos rfl, if_pos rfl, neg_div]
    exact sign_neg (neg_neg_of_pos hvalue)

theorem same_of_value_mul_nonneg (hpos : 0 < n)
    (h : 0 ≤ (finite s m hm).value * (finite t n hn).value) : s = t ∨ m = 0 := by
  by_contra hother
  push Not at hother
  have hsign := sign_mul (finite s m hm).value (finite t n hn).value
  rw [sign_value (Nat.pos_of_ne_zero hother.2), sign_value hpos] at hsign
  refine absurd h (not_le.2 (sign_eq_neg_one_iff.1 ?_))
  rw [hsign]
  cases s <;> cases t <;> simp_all

end

end Binary64

/-- For finite numbers, the divisor not being zero, `%` gives the exact floor modulo rounded once.
The result is zero or has the sign of the divisor, which it does not exceed, and it is exact if the
signs agree. -/
theorem applyText_mod {a b : Binary64} (ha : a.isFinite) (hb : b.isFinite) (hzero : b.value ≠ 0) :
    ∃ r : Binary64, Operator.applyText "%" (.number a) (.number b) = .ok (.number r) ∧
      r.IsNearest (a.floorMod b) ∧
      (r.value = 0 ∨ SignType.sign r.value = SignType.sign b.value) ∧
      |r.value| ≤ |b.value| ∧
      (0 ≤ a.value * b.value → r.value = a.floorMod b) := by
  cases a with
  | nan | infinite => cases ha
  | finite s m hm =>
    cases b with
    | nan | infinite => cases hb
    | finite t n hn =>
      have hpos : 0 < n := by
        by_contra hnot
        obtain rfl : n = 0 := by omega
        exact hzero (Binary64.value_eq_zero hn)
      have hfits := Binary64.fits_nearest_remainder s m t hn hpos
      rw [Binary64.floorMod_eq hm hn hpos]
      refine ⟨.finite t _ hfits, ?_, Binary64.isNearest_signed hfits t, ?_, ?_, ?_⟩
      · simp [Operator.applyText, Operator.ofSymbol?, Operator.apply, Operator.dividesByZero,
          Operator.onNumbers, Binary64.isZero, Binary64.isFinite, hpos.ne',
          Binary64.mod_eq hm hn hpos]
      · obtain hnone | hsome := Nat.eq_zero_or_pos (nearest (Binary64.remainder s m t n) 1)
        · simp only [hnone]
          exact .inl (Binary64.value_eq_zero _)
        · exact .inr (by rw [Binary64.sign_value hsome, Binary64.sign_value hpos])
      · rw [Binary64.abs_value, Binary64.abs_value,
          div_le_div_iff_of_pos_right cast_quantaPerOne_pos]
        exact Nat.cast_le.2 (Binary64.nearest_remainder_le hn hpos)
      · intro hproduct
        have hsame := Binary64.same_of_value_mul_nonneg hpos hproduct
        rw [Binary64.value, Binary64.nearest_remainder hm hn hsame]

/-- A number below zero by less than the spacing of numbers near one. -/
def slightlyBelow : Binary64 :=
  .finite true (twoPow 1000) (fits_twoPow (show 1000 < topExponent by decide))

/-- What is left of it by one lies just below one, and is rounded to one itself. -/
theorem applyText_slightlyBelow :
    slightlyBelow.isFinite ∧ Binary64.one.isFinite ∧ Binary64.one.value ≠ 0 ∧
      Operator.applyText "%" (.number slightlyBelow) (.number .one) = .ok (.number .one) ∧
      Binary64.one.IsNearest (slightlyBelow.floorMod .one) := by
  have hone : Binary64.one.value ≠ 0 := by
    have habs : |Binary64.one.value| = quantaPerOne / quantaPerOne := Binary64.abs_value
    rw [← abs_pos, habs]
    exact div_pos cast_quantaPerOne_pos cast_quantaPerOne_pos
  have hmod : slightlyBelow.mod .one = .one := by decide +kernel
  have hzero : Binary64.one.isZero = false := by decide +kernel
  have hresult :
      Operator.applyText "%" (.number slightlyBelow) (.number .one) = .ok (.number .one) := by
    simp [Operator.applyText, Operator.ofSymbol?, Operator.apply, Operator.dividesByZero, hzero,
      Operator.onNumbers, hmod, show Binary64.one.isFinite from rfl]
  obtain ⟨r, hr, hnearest, -⟩ := applyText_mod (a := slightlyBelow) rfl rfl hone
  obtain rfl : r = Binary64.one := by
    rw [hresult] at hr
    cases hr
    rfl
  exact ⟨rfl, rfl, hone, hresult, hnearest⟩

end Reckon
