import Mathlib
import Reckon.Decimal.Shortest

/-!
# Rounding

`nearest p q` depends on the quotient of `p` and `q` only and grows with it (`nearest_mono`).  It
leaves the counts of 53 significant bits as they are (`nearest_mul_self`), no other such count is
nearer to the quotient (`dist_nearest_le`), and it is even if another is as near
(`even_nearest_of_tie`).
-/

namespace Reckon

@[simp] theorem cast_twoPow (k : ℕ) : (twoPow k : ℚ) = 2 ^ k := Nat.cast_pow 2 k

@[simp] theorem cast_tenPow (k : ℕ) : (tenPow k : ℚ) = 10 ^ k := Nat.cast_pow 10 k

/-! ## Whole numbers -/

/-- A whole number is the nearest to a fraction, and it is even if there are two such. -/
def RoundsTo (v : ℚ) (r : ℕ) : Prop := |v - r| ≤ 1 / 2 ∧ (|v - r| = 1 / 2 → Even r)

namespace RoundsTo

variable {v w : ℚ} {r s : ℕ}

/-- Halves going to the even neighbour do not disturb the order. -/
theorem mono (hr : RoundsTo v r) (hs : RoundsTo w s) (h : v ≤ w) : r ≤ s := by
  by_contra hlt
  obtain ⟨hr, hreven⟩ := hr
  obtain ⟨hs, hseven⟩ := hs
  have hstep : (s : ℚ) + 1 ≤ r := by exact_mod_cast not_le.1 hlt
  have hlow := (abs_le.1 hr).1
  have hhigh := (abs_le.1 hs).2
  -- Both are half-way between `s` and `s + 1`, and only one of these is even.
  have hr' : (r : ℚ) = s + 1 := by linarith
  have hv : v - r = -(1 / 2) := by linarith
  have hw : w - s = 1 / 2 := by linarith
  have hnext : r = s + 1 := by exact_mod_cast hr'
  have hreven : Even (s + 1) := hnext ▸ hreven (by rw [hv]; norm_num)
  have hseven : Even s := hseven (by rw [hw]; norm_num)
  exact Nat.even_add_one.1 hreven hseven

theorem one_le_dist_add {m : ℕ} (v : ℚ) (hne : m ≠ r) : 1 ≤ |v - m| + |v - r| := by
  have hstep : (1 : ℚ) ≤ |(m : ℚ) - r| := by
    exact_mod_cast Int.one_le_abs (show (m : ℤ) - r ≠ 0 by omega)
  have hsum : |(m : ℚ) - r| ≤ |(m : ℚ) - v| + |v - r| := abs_sub_le _ _ _
  rw [abs_sub_comm (m : ℚ) v] at hsum
  linarith

/-- No whole number is nearer. -/
theorem dist_le (hr : RoundsTo v r) (m : ℕ) : |v - r| ≤ |v - m| := by
  obtain rfl | hne := eq_or_ne m r
  · exact le_rfl
  · linarith [hr.1, one_le_dist_add v hne]

theorem even_of_tie (hr : RoundsTo v r) {m : ℕ} (hne : m ≠ r) (htie : |v - m| = |v - r|) :
    Even r :=
  hr.2 (by linarith [hr.1, one_le_dist_add v hne])

end RoundsTo

theorem roundsTo_roundEven (p : ℕ) {q : ℕ} (hq : 0 < q) : RoundsTo (p / q) (roundEven p q) := by
  have hq' : (0 : ℚ) < q := Nat.cast_pos.2 hq
  have hrest : (p : ℚ) / q - (p / q : ℕ) = (p % q : ℕ) / q := by
    rw [eq_div_iff hq'.ne', sub_mul, div_mul_cancel₀ _ hq'.ne', sub_eq_iff_eq_add]
    exact_mod_cast (Nat.mod_add_div' p q).symm
  have hup : (p : ℚ) / q - (p / q + 1 : ℕ) = (p % q : ℕ) / q - 1 := by
    rw [← hrest]
    push_cast
    ring
  have hpos : (0 : ℚ) ≤ (p % q : ℕ) / q := by positivity
  unfold roundEven
  split
  case isTrue hlt =>
    have hlt : ((p % q : ℕ) : ℚ) / q < 1 / 2 := by
      rw [div_lt_div_iff₀ hq' two_pos]
      exact_mod_cast (by omega : p % q * 2 < 1 * q)
    rw [RoundsTo, hrest, abs_of_nonneg hpos]
    exact ⟨hlt.le, fun h => absurd h hlt.ne⟩
  case isFalse hle =>
    split
    case isTrue hgt =>
      have hgt : 1 / 2 < ((p % q : ℕ) : ℚ) / q := by
        rw [div_lt_div_iff₀ two_pos hq']
        exact_mod_cast (by omega : 1 * q < p % q * 2)
      have hone : ((p % q : ℕ) : ℚ) / q < 1 := by
        rw [div_lt_one hq']
        exact_mod_cast Nat.mod_lt p hq
      rw [RoundsTo, hup, abs_of_neg (by linarith)]
      exact ⟨by linarith, fun h => by linarith⟩
    case isFalse hge =>
      have hhalf : ((p % q : ℕ) : ℚ) / q = 1 / 2 := by
        rw [div_eq_div_iff hq'.ne' two_ne_zero]
        exact_mod_cast (by omega : p % q * 2 = 1 * q)
      have heven : Even (p / q + p / q % 2) := by
        rw [Nat.even_iff]
        omega
      refine ⟨?_, fun _ => heven⟩
      obtain hparity | hparity := Nat.mod_two_eq_zero_or_one (p / q)
      · rw [hparity, add_zero, hrest, hhalf, abs_of_pos (by norm_num)]
      · rw [hparity, hup, hhalf]
        norm_num [abs_of_neg]

theorem roundEven_mul_self (k : ℕ) {q : ℕ} (hq : 0 < q) : roundEven (k * q) q = k := by
  rw [roundEven, Nat.mul_mod_left, if_pos (by omega), Nat.mul_div_cancel _ hq]

/-! ## Counts of 53 significant bits -/

/-- Counts of 53 significant bits are not closer to each other than the larger is in proportion. -/
theorem le_mul_sub {m n : ℕ} (hm : spacing m ∣ m) (hn : spacing n ∣ n) (h : m < n) :
    n ≤ twoPow 53 * (n - m) := by
  have hspacing : spacing m ∣ n := (spacing_dvd_spacing (log2_mono h.le)).trans hn
  have hbits : m / spacing m < twoPow 53 := div_spacing_lt m
  generalize spacing m = s at *
  obtain ⟨i, rfl⟩ := hm
  obtain ⟨j, rfl⟩ := hspacing
  have hs : 0 < s := Nat.pos_of_mul_pos_right (by omega : 0 < s * j)
  rw [Nat.mul_div_cancel_left i hs] at hbits
  have hij : i < j := Nat.lt_of_mul_lt_mul_left h
  have hsteps : j ≤ twoPow 53 * (j - i) := by
    obtain ⟨k, rfl⟩ := Nat.exists_eq_add_of_lt hij
    have hk : i + k + 1 - i = k + 1 := by omega
    rw [hk]
    nlinarith
  calc s * j ≤ s * (twoPow 53 * (j - i)) := Nat.mul_le_mul_left s hsteps
    _ = twoPow 53 * (s * j - s * i) := by rw [← Nat.mul_sub, Nat.mul_left_comm]

theorem le_mul_dist {m n : ℕ} (hm : spacing m ∣ m) (hn : spacing n ∣ n) (h : m ≠ n) :
    (n : ℚ) ≤ twoPow 53 * |(n : ℚ) - m| := by
  obtain hlt | hgt := h.lt_or_gt
  · have hstep := le_mul_sub hm hn hlt
    rw [← Nat.cast_sub hlt.le, Nat.abs_cast]
    exact_mod_cast hstep
  · have hstep := hgt.le.trans (le_mul_sub hn hm hgt)
    rw [abs_sub_comm, ← Nat.cast_sub hgt.le, Nat.abs_cast]
    exact_mod_cast hstep

section

variable {p q p' q' : ℕ}

theorem nearest_mul_self {n : ℕ} (hn : spacing n ∣ n) (hq : 0 < q) : nearest (n * q) q = n := by
  obtain ⟨k, hk⟩ := hn
  have hround : roundEven (n * q) (q * spacing n) = k := by
    have hmul : n * q = k * (q * spacing n) := by
      conv_lhs => rw [hk]
      ring
    rw [hmul, roundEven_mul_self k (Nat.mul_pos hq (spacing_pos n))]
  rw [nearest, Nat.mul_div_cancel n hq, hround, mul_comm, ← hk]

theorem roundEven_spacing_le (p q : ℕ) : roundEven p (q * spacing (p / q)) ≤ twoPow 53 := by
  refine (roundEven_le _ _).trans ?_
  rw [← Nat.div_div_eq_div_mul]
  exact div_spacing_lt (p / q)

theorem nearest_le (p q : ℕ) : nearest p q ≤ twoPow (53 + ((p / q).log2 - 52)) := by
  rw [twoPow_add]
  exact Nat.mul_le_mul_right _ (roundEven_spacing_le p q)

theorem le_nearest (hpq : p / q ≠ 0) : twoPow (p / q).log2 ≤ nearest p q := by
  have hdvd : spacing (p / q) ∣ twoPow (p / q).log2 := twoPow_dvd_twoPow (Nat.sub_le _ _)
  calc twoPow (p / q).log2
      = twoPow (p / q).log2 / spacing (p / q) * spacing (p / q) := (Nat.div_mul_cancel hdvd).symm
    _ ≤ p / q / spacing (p / q) * spacing (p / q) :=
        Nat.mul_le_mul_right _ (Nat.div_le_div_right (Nat.log2_self_le hpq))
    _ ≤ nearest p q := by
        rw [Nat.div_div_eq_div_mul]
        exact Nat.mul_le_mul_right _ (le_roundEven _ _)

/-- Measured in steps of the spacing, rounding is to whole numbers. -/
theorem roundsTo_steps (p : ℕ) (hq : 0 < q) (n : ℕ) :
    RoundsTo ((p : ℚ) / q / spacing n) (roundEven p (q * spacing n)) := by
  have hround := roundsTo_roundEven p (Nat.mul_pos hq (spacing_pos n))
  rwa [Nat.cast_mul, ← div_div] at hround

/-- A larger quotient is not rounded to less. -/
theorem nearest_mono (hq : 0 < q) (hq' : 0 < q') (h : (p : ℚ) / q ≤ p' / q') :
    nearest p q ≤ nearest p' q' := by
  have hfloor : p / q ≤ p' / q' := by
    rw [← Nat.floor_div_eq_div (K := ℚ), ← Nat.floor_div_eq_div (K := ℚ)]
    exact Nat.floor_mono h
  have hlog := log2_mono hfloor
  obtain hsame | hless : (p / q).log2 - 52 = (p' / q').log2 - 52 ∨
      (p / q).log2 - 52 < (p' / q').log2 - 52 := by omega
  · have hspacing : spacing (p / q) = spacing (p' / q') := congrArg twoPow hsame
    rw [nearest, nearest, hspacing]
    refine Nat.mul_le_mul_right _ ((roundsTo_steps p hq _).mono (roundsTo_steps p' hq' _) ?_)
    gcongr
  · -- A power of two lies between quotients of different spacing.
    calc nearest p q ≤ twoPow (53 + ((p / q).log2 - 52)) := nearest_le p q
      _ ≤ twoPow (p' / q').log2 := twoPow_le_twoPow (by omega)
      _ ≤ nearest p' q' := le_nearest (by rintro h0; simp [h0] at hless)

theorem nearest_congr (hq : 0 < q) (hq' : 0 < q') (h : (p : ℚ) / q = p' / q') :
    nearest p q = nearest p' q' :=
  (nearest_mono hq hq' h.le).antisymm (nearest_mono hq' hq h.ge)

theorem dist_steps (v : ℚ) (r n : ℕ) :
    |v - (r * spacing n : ℕ)| = |v / spacing n - r| * spacing n := by
  have hs : (0 : ℚ) < spacing n := Nat.cast_pos.2 (spacing_pos _)
  rw [← abs_of_pos hs, ← abs_mul, abs_of_pos hs, sub_mul, div_mul_cancel₀ _ hs.ne', Nat.cast_mul]

theorem dist_nearest_le_steps (hq : 0 < q) (k : ℕ) :
    |(p : ℚ) / q - nearest p q| ≤ |(p : ℚ) / q - (k * spacing (p / q) : ℕ)| := by
  rw [nearest, dist_steps, dist_steps]
  exact mul_le_mul_of_nonneg_right ((roundsTo_steps p hq _).dist_le k) (Nat.cast_nonneg _)

/-- A count of a smaller spacing lies below the power of two under the quotient, and is farther
away than that power. -/
theorem dist_nearest_lt (hq : 0 < q) {m : ℕ} (hm : spacing m ∣ m) (hdvd : ¬ spacing (p / q) ∣ m) :
    |(p : ℚ) / q - nearest p q| < |(p : ℚ) / q - m| := by
  have hlog : m.log2 < (p / q).log2 := by
    by_contra hle
    exact hdvd ((spacing_dvd_spacing (not_lt.1 hle)).trans hm)
  have hpq : p / q ≠ 0 := by
    intro h0
    simp [h0] at hlog
  obtain ⟨k, hk⟩ : spacing (p / q) ∣ twoPow (p / q).log2 := twoPow_dvd_twoPow (Nat.sub_le _ _)
  have hbelow : (m : ℚ) < twoPow (p / q).log2 :=
    Nat.cast_lt.2 ((lt_twoPow_log2_succ m).trans_le (twoPow_le_twoPow hlog))
  have habove : (twoPow (p / q).log2 : ℚ) ≤ p / q :=
    (Nat.cast_le.2 (Nat.log2_self_le hpq)).trans Nat.cast_div_le
  have hpower := dist_nearest_le_steps (p := p) hq k
  rw [mul_comm k, ← hk] at hpower
  refine hpower.trans_lt ?_
  rw [abs_of_nonneg (by linarith), abs_of_nonneg (by linarith)]
  linarith

/-- No count of 53 significant bits is nearer. -/
theorem dist_nearest_le (hq : 0 < q) {m : ℕ} (hm : spacing m ∣ m) :
    |(p : ℚ) / q - nearest p q| ≤ |(p : ℚ) / q - m| := by
  by_cases hdvd : spacing (p / q) ∣ m
  · obtain ⟨k, hk⟩ := hdvd
    rw [hk, mul_comm]
    exact dist_nearest_le_steps hq k
  · exact (dist_nearest_lt hq hm hdvd).le

/-- Even multiples of a power of two are even multiples of their own spacing. -/
theorem even_div_spacing {k e : ℕ} (hk : Even k) (h : k ≤ twoPow 53) :
    Even (k * twoPow e / spacing (k * twoPow e)) := by
  obtain hlt | rfl := Nat.lt_or_eq_of_le h
  · have hdvd : spacing (k * twoPow e) ∣ twoPow e := by
      refine twoPow_dvd_twoPow ?_
      by_cases h0 : k * twoPow e = 0
      · simp [h0]
      · have hbits : k * twoPow e < twoPow (53 + e) := by
          rw [twoPow_add]
          exact Nat.mul_lt_mul_of_pos_right hlt (twoPow_pos e)
        have := log2_lt_of_lt_twoPow h0 hbits
        omega
    rw [Nat.mul_div_assoc k hdvd]
    exact hk.mul_right _
  · have hspacing : spacing (twoPow (53 + e)) = twoPow (1 + e) := by
      rw [spacing, log2_twoPow]
      congr 1
      omega
    rw [← twoPow_add, hspacing, show 53 + e = 52 + (1 + e) by omega, twoPow_add 52,
      Nat.mul_div_cancel _ (twoPow_pos _)]
    decide

/-- Between two counts of 53 significant bits that are equally near, the even one is taken. -/
theorem even_nearest_of_tie (hq : 0 < q) {m : ℕ} (hm : spacing m ∣ m) (hne : m ≠ nearest p q)
    (htie : |(p : ℚ) / q - m| = |(p : ℚ) / q - nearest p q|) :
    Even (nearest p q / spacing (nearest p q)) := by
  have hdvd : spacing (p / q) ∣ m := by
    by_contra hdvd
    exact (dist_nearest_lt hq hm hdvd).ne' htie
  obtain ⟨k, rfl⟩ := hdvd
  have hk : k ≠ roundEven p (q * spacing (p / q)) := by
    rintro rfl
    exact hne (mul_comm _ _)
  have hs : (spacing (p / q) : ℚ) ≠ 0 := Nat.cast_ne_zero.2 (spacing_pos _).ne'
  rw [mul_comm, nearest, dist_steps, dist_steps] at htie
  have heven := (roundsTo_steps p hq _).even_of_tie hk (mul_right_cancel₀ hs htie)
  exact even_div_spacing heven (roundEven_spacing_le p q)

/-- What is close to a count of 53 significant bits in proportion is rounded to it. -/
theorem nearest_eq_of_close (hq : 0 < q) {n : ℕ} (hn : spacing n ∣ n)
    (h : 2 * twoPow 53 * |(p : ℚ) / q - n| < n) : nearest p q = n := by
  by_contra hne
  have hapart := le_mul_dist (spacing_dvd_nearest p q) hn hne
  have hnearest := dist_nearest_le (p := p) hq hn
  have hsum := abs_sub_le (n : ℚ) (p / q) (nearest p q)
  rw [abs_sub_comm (n : ℚ) (p / q)] at hsum
  have hbits : (0 : ℚ) ≤ twoPow 53 := Nat.cast_nonneg _
  have hgap : (n : ℚ) ≤ twoPow 53 * (2 * |(p : ℚ) / q - n|) :=
    hapart.trans (mul_le_mul_of_nonneg_left (by linarith) hbits)
  linarith

theorem nearest_eq_zero (h : 2 * p < q) : nearest p q = 0 := by
  have hzero : p / q = 0 := Nat.div_eq_of_lt (by omega)
  have hspacing : spacing 0 = 1 := rfl
  rw [nearest, hzero, hspacing, Nat.mul_one, Nat.mul_one, roundEven, Nat.mod_eq_of_lt (by omega),
    if_pos h, hzero]

namespace Binary64

theorem ofRatio_of_nearest {n : ℕ} (h : nearest p q = n) (fits : Fits n) (negative : Bool) :
    ofRatio negative p q = .finite negative n fits := by
  subst h
  rw [ofRatio, dif_pos fits.1]

theorem ofRatio_of_ceiling_le (h : ceiling ≤ nearest p q) (negative : Bool) :
    ofRatio negative p q = .infinite negative := by
  rw [ofRatio, dif_neg (not_lt.2 h)]

end Binary64

end

end Reckon
