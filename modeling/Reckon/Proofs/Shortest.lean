import Reckon.Decimal.Layout
import Reckon.Proofs.Rounding

/-!
# The shortest decimal reads back

A decimal is rounded by its value alone (`Decimal.quanta_mono`, `Decimal.toBinary64_eq`).  The
decimal found by `Decimal.shortest` is rounded to the number it was found for
(`Decimal.quanta_shortest`), and no decimal of fewer significant digits is
(`Decimal.length_shortest_le`).  For if any decimal of some digits reads back, then so does one of
the two neighbours on the grid of as many digits, and on that of seventeen digits one always does.
-/

namespace Reckon

theorem cast_quantaPerOne_pos : (0 : ℚ) < quantaPerOne := Nat.cast_pos.2 (twoPow_pos oneExponent)

/-- The number that a count of quanta amounts to. -/
def magnitude (n : ℕ) : ℚ := n / quantaPerOne

theorem magnitude_nonneg (n : ℕ) : 0 ≤ magnitude n :=
  div_nonneg (Nat.cast_nonneg n) cast_quantaPerOne_pos.le

theorem magnitude_mul (n : ℕ) : magnitude n * quantaPerOne = n :=
  div_mul_cancel₀ _ cast_quantaPerOne_pos.ne'

namespace Decimal

variable {d d' : Decimal} {n : ℕ}

/-- The number that a decimal stands for. -/
def value (d : Decimal) : ℚ := d.coefficient * 10 ^ d.exponent

theorem pow_toNat_div (e : ℤ) : (10 : ℚ) ^ e.toNat / 10 ^ (-e).toNat = 10 ^ e := by
  obtain ⟨k, rfl | rfl⟩ := e.eq_nat_or_neg
  · simp
  · simp

theorem ratio_pos (d : Decimal) : 0 < d.ratio.2 := tenPow_pos _

theorem ratio_div (d : Decimal) : (d.ratio.1 : ℚ) / d.ratio.2 = d.value * quantaPerOne := by
  rw [value, ← pow_toNat_div]
  simp only [ratio, Nat.cast_mul, cast_tenPow]
  ring

/-! ## Rounding -/

theorem quanta_mono (h : d.value ≤ d'.value) : d.quanta ≤ d'.quanta := by
  apply nearest_mono d.ratio_pos d'.ratio_pos
  rw [ratio_div, ratio_div]
  exact mul_le_mul_of_nonneg_right h cast_quantaPerOne_pos.le

theorem quanta_congr (h : d.value = d'.value) : d.quanta = d'.quanta :=
  (quanta_mono h.le).antisymm (quanta_mono h.ge)

theorem value_exact (n : ℕ) : (exact n).value = magnitude n := by
  have hfive (k : ℕ) : (fivePow k : ℚ) = 5 ^ k := Nat.cast_pow 5 k
  unfold value exact magnitude quantaPerOne
  generalize oneExponent = k
  have hten : (10 : ℚ) ^ k = 5 ^ k * 2 ^ k := by
    rw [← mul_pow]
    norm_num
  rw [Nat.cast_mul, hfive, cast_twoPow, zpow_neg, zpow_natCast, hten]
  field_simp

theorem quanta_exact (hn : spacing n ∣ n) : (exact n).quanta = n := by
  have hself : nearest (n * 1) 1 = n := nearest_mul_self hn one_pos
  rw [← hself]
  apply nearest_congr (ratio_pos _) one_pos
  rw [ratio_div, value_exact, hself, magnitude_mul, Nat.cast_mul]
  simp

theorem ceiling_le_quanta (h : d.isHuge) : ceiling ≤ d.quanta := by
  obtain ⟨hc, he⟩ : d.coefficient ≠ 0 ∧ 310 < d.exponent := by simpa [isHuge] using h
  have hspacing : spacing ceiling ∣ ceiling := by
    rw [ceiling, spacing, log2_twoPow]
    exact twoPow_dvd_twoPow (Nat.sub_le _ _)
  have hone : (1 : ℚ) ≤ d.coefficient := Nat.one_le_cast.2 (Nat.pos_of_ne_zero hc)
  have hbits : twoPow 1024 ≤ tenPow 311 := by decide +kernel
  have hvalue : (exact ceiling).value ≤ d.value := by
    have hceiling : (ceiling : ℚ) = twoPow 1024 * quantaPerOne := by
      rw [← Nat.cast_mul, quantaPerOne, ← twoPow_add]
      rfl
    rw [value_exact, magnitude, hceiling, mul_div_cancel_right₀ _ cast_quantaPerOne_pos.ne']
    calc (twoPow 1024 : ℚ) ≤ tenPow 311 := Nat.cast_le.2 hbits
      _ = 10 ^ (311 : ℤ) := by rw [cast_tenPow, ← zpow_natCast]; rfl
      _ ≤ 10 ^ d.exponent := zpow_le_zpow_right₀ (by norm_num) he
      _ ≤ d.value := le_mul_of_one_le_left (by positivity) hone
  rw [← quanta_exact hspacing]
  exact quanta_mono hvalue

theorem quanta_eq_zero (h : d.isTiny) : d.quanta = 0 := by
  rw [isTiny, Bool.or_eq_true, beq_iff_eq, decide_eq_true_eq] at h
  apply nearest_eq_zero
  obtain hc | he := h
  · have hzero : d.ratio.1 = 0 := by simp [ratio, hc]
    rw [hzero]
    exact d.ratio_pos
  · obtain ⟨k, hk⟩ : ∃ k : ℕ, d.exponent = -k := ⟨(-d.exponent).toNat, by omega⟩
    have hbits : d.coefficient.log2 + 1081 < 3 * k := by omega
    have hratio : d.ratio = (d.coefficient * quantaPerOne, tenPow k) := by
      simp [ratio, hk, tenPow]
    rw [hratio]
    calc 2 * (d.coefficient * quantaPerOne)
        < 2 * (twoPow (d.coefficient.log2 + 1) * quantaPerOne) := by
          have := Nat.mul_lt_mul_of_pos_right (lt_twoPow_log2_succ d.coefficient)
            (twoPow_pos oneExponent)
          exact Nat.mul_lt_mul_of_pos_left this two_pos
      _ = twoPow (1 + (d.coefficient.log2 + 1 + oneExponent)) := by
          rw [twoPow_add 1, twoPow_add _ oneExponent]
          rfl
      _ ≤ twoPow (3 * k) := twoPow_le_twoPow (by rw [oneExponent]; omega)
      _ = 8 ^ k := Nat.pow_mul 2 3 k
      _ ≤ tenPow k := Nat.pow_le_pow_left (by norm_num) k

theorem coefficient_ne_zero (h : d.quanta ≠ 0) : d.coefficient ≠ 0 := by
  intro hc
  exact h (quanta_eq_zero (by simp [isTiny, hc]))

/-- The exponents that are settled by their size alone are settled as the rounding would. -/
theorem toBinary64_eq (negative : Bool) (d : Decimal) :
    d.toBinary64 negative = .ofRatio negative d.ratio.1 d.ratio.2 := by
  rw [toBinary64]
  split
  · rename_i hhuge
    exact (Binary64.ofRatio_of_ceiling_le (ceiling_le_quanta hhuge) negative).symm
  split
  · rename_i htiny
    exact (Binary64.ofRatio_of_nearest (quanta_eq_zero htiny) fits_zero negative).symm
  · rfl

/-- A decimal that is rounded to a count in the format is read as that number. -/
theorem toBinary64_of_quanta (h : d.quanta = n) (fits : Fits n) (negative : Bool) :
    d.toBinary64 negative = .finite negative n fits := by
  rw [toBinary64_eq]
  exact Binary64.ofRatio_of_nearest h fits negative

/-! ## The grids -/

theorem length_toDigits_bounds {m : ℕ} (hm : m ≠ 0) :
    10 ^ ((Nat.toDigits 10 m).length - 1) ≤ m ∧ m < 10 ^ (Nat.toDigits 10 m).length := by
  have hpos := Nat.length_toDigits_pos (b := 10) (n := m)
  constructor
  · by_contra hlt
    obtain hone | hmore := Nat.eq_or_lt_of_le hpos
    · rw [← hone] at hlt
      exact hlt (Nat.pos_of_ne_zero hm)
    · have := (Nat.length_toDigits_le_iff (by norm_num) (by omega)).2 (not_le.1 hlt)
      omega
  · exact (Nat.length_toDigits_le_iff (by norm_num) hpos).1 le_rfl

/-- The leading digit of a fraction is found by counting the digits of a multiple. -/
theorem zpow_length_toDigits {v : ℚ} {s : ℕ} (h : ⌊v * 10 ^ s⌋₊ ≠ 0) :
    (10 : ℚ) ^ ((Nat.toDigits 10 ⌊v * 10 ^ s⌋₊).length - 1 - s : ℤ) ≤ v ∧
      v < 10 ^ ((Nat.toDigits 10 ⌊v * 10 ^ s⌋₊).length - s : ℤ) := by
  have hs : (0 : ℚ) < 10 ^ s := by positivity
  have hlow : (⌊v * 10 ^ s⌋₊ : ℚ) ≤ v * 10 ^ s :=
    Nat.floor_le (Nat.pos_of_floor_pos (Nat.pos_of_ne_zero h)).le
  have hhigh : v * 10 ^ s < (⌊v * 10 ^ s⌋₊ + 1 : ℕ) := by
    exact_mod_cast Nat.lt_floor_add_one (v * 10 ^ s)
  obtain ⟨hfirst, hlast⟩ := length_toDigits_bounds h
  obtain ⟨k, hk⟩ : ∃ k, (Nat.toDigits 10 ⌊v * 10 ^ s⌋₊).length = k + 1 :=
    ⟨_, (Nat.succ_pred_eq_of_pos Nat.length_toDigits_pos).symm⟩
  rw [hk] at hfirst hlast ⊢
  have hten : (10 : ℚ) ≠ 0 := by norm_num
  constructor
  · have hexponent : ((k + 1 : ℕ) - 1 - s : ℤ) = k - s := by push_cast; ring
    rw [hexponent, zpow_sub₀ hten, zpow_natCast, zpow_natCast, div_le_iff₀ hs]
    exact le_trans (by exact_mod_cast hfirst) hlow
  · rw [zpow_sub₀ hten, zpow_natCast, zpow_natCast, lt_div_iff₀ hs]
    exact hhigh.trans_le (by exact_mod_cast hlast)

/-- The leading digit of a count of quanta stands where it is said to. -/
theorem zpow_leadingExponent (hn : n ≠ 0) :
    (10 : ℚ) ^ leadingExponent n ≤ magnitude n ∧
      magnitude n < 10 ^ (leadingExponent n + 1) := by
  have hleast : quantaPerOne ≤ tenPow 324 := by decide +kernel
  have hfloor : ⌊magnitude n * 10 ^ 324⌋₊ = n * tenPow 324 / quantaPerOne := by
    rw [magnitude, ← cast_tenPow, div_mul_eq_mul_div, ← Nat.cast_mul, Nat.floor_div_eq_div]
  have hpos : n * tenPow 324 / quantaPerOne ≠ 0 := by
    rw [Nat.div_ne_zero_iff]
    exact ⟨(twoPow_pos oneExponent).ne',
      hleast.trans (Nat.le_mul_of_pos_left _ (Nat.pos_of_ne_zero hn))⟩
  have hbounds := zpow_length_toDigits (hfloor ▸ hpos)
  rw [hfloor] at hbounds
  unfold leadingExponent
  convert hbounds using 3 <;> push_cast <;> ring

/-- A count of quanta in units of `10 ^ e`. -/
theorem magnitude_div (n : ℕ) (e : ℤ) :
    ((n * tenPow (-e).toNat : ℕ) : ℚ) / (quantaPerOne * tenPow e.toNat : ℕ) =
      magnitude n / 10 ^ e := by
  rw [magnitude, ← pow_toNat_div, Nat.cast_mul, Nat.cast_mul, cast_tenPow, cast_tenPow]
  generalize quantaPerOne = q
  field_simp

/-- The neighbours are the multiples of a power of ten below and above. -/
theorem mem_neighbours {e : ℤ} :
    d ∈ neighbours n e ↔ d = ⟨⌊magnitude n / 10 ^ e⌋₊, e⟩ ∨
      d = ⟨⌊magnitude n / 10 ^ e⌋₊ + 1, e⟩ := by
  have hfloor : ⌊magnitude n / 10 ^ e⌋₊ =
      n * tenPow (-e).toNat / (quantaPerOne * tenPow e.toNat) := by
    rw [← magnitude_div, Nat.floor_div_eq_div]
  rw [hfloor, neighbours]
  have hle := roundEven_le (n * tenPow (-e).toNat) (quantaPerOne * tenPow e.toNat)
  have hge := le_roundEven (n * tenPow (-e).toNat) (quantaPerOne * tenPow e.toNat)
  simp only [List.mem_cons, List.not_mem_nil, or_false]
  split
  · rename_i hnear
    rw [hnear]
  · rename_i hnear
    have hnear : roundEven (n * tenPow (-e).toNat) (quantaPerOne * tenPow e.toNat) =
        n * tenPow (-e).toNat / (quantaPerOne * tenPow e.toNat) + 1 := by omega
    rw [hnear, or_comm]

/-- A multiple of a power of ten between two decimals that read back reads back, too.  The exact
expansion is one of them. -/
theorem quanta_of_between (hn : spacing n ∣ n) (hd : d.quanta = n)
    (h : d.value ≤ d'.value ∧ d'.value ≤ magnitude n ∨
      magnitude n ≤ d'.value ∧ d'.value ≤ d.value) : d'.quanta = n := by
  have hexact := quanta_exact hn
  rw [← value_exact] at h
  obtain ⟨hlow, hhigh⟩ | ⟨hlow, hhigh⟩ := h
  · exact le_antisymm (hexact ▸ quanta_mono hhigh) (hd ▸ quanta_mono hlow)
  · exact le_antisymm (hd ▸ quanta_mono hhigh) (hexact ▸ quanta_mono hlow)

/-- A decimal of at most `k + 1` digits is a multiple of `10 ^ e`, or below `10 ^ (k + e)`. -/
theorem value_cases {k : ℕ} (hc : d.coefficient < 10 ^ (k + 1)) (e : ℤ) :
    (∃ m : ℕ, d.value = m * 10 ^ e) ∨ d.value < 10 ^ (k + e) := by
  have hten : (10 : ℚ) ≠ 0 := by norm_num
  obtain hle | hlt := le_or_gt e d.exponent
  · obtain ⟨j, hj⟩ := Int.eq_ofNat_of_zero_le (sub_nonneg.2 hle)
    refine .inl ⟨d.coefficient * 10 ^ j, ?_⟩
    have hexponent : d.exponent = j + e := by omega
    rw [value, hexponent, zpow_add₀ hten, zpow_natCast]
    push_cast
    ring
  · right
    have hc' : (d.coefficient : ℚ) < 10 ^ (k + 1) := by exact_mod_cast hc
    calc d.value < 10 ^ (k + 1) * 10 ^ d.exponent := mul_lt_mul_of_pos_right hc' (by positivity)
      _ = 10 ^ (k + 1 + d.exponent : ℤ) := by rw [zpow_add₀ hten]; norm_cast
      _ ≤ 10 ^ (k + e) := zpow_le_zpow_right₀ (by norm_num) (by omega)

/-- If there is a multiple of `10 ^ e` from a decimal that reads back up to the number, then the
neighbour below reads back. -/
theorem exists_neighbour_below (hn : spacing n ∣ n) (hd : d.quanta = n) {m : ℕ} {e : ℤ}
    (hdm : d.value ≤ m * 10 ^ e) (hmn : m * 10 ^ e ≤ magnitude n) :
    ∃ d' ∈ neighbours n e, d'.quanta = n := by
  have hpos : (0 : ℚ) < 10 ^ e := by positivity
  have hm : m ≤ ⌊magnitude n / 10 ^ e⌋₊ := Nat.le_floor ((le_div_iff₀ hpos).2 hmn)
  refine ⟨_, mem_neighbours.2 (.inl rfl), quanta_of_between hn hd (.inl ⟨?_, ?_⟩)⟩
  · exact hdm.trans (mul_le_mul_of_nonneg_right (Nat.cast_le.2 hm) hpos.le)
  · exact (le_div_iff₀ hpos).1 (Nat.floor_le (div_nonneg (magnitude_nonneg n) hpos.le))

/-- If a decimal above the number reads back and is a multiple of `10 ^ e`, then the neighbour above
reads back. -/
theorem exists_neighbour_above (hn : spacing n ∣ n) (hd : d.quanta = n) {m : ℕ} {e : ℤ}
    (hm : d.value = m * 10 ^ e) (hgt : magnitude n < d.value) :
    ∃ d' ∈ neighbours n e, d'.quanta = n := by
  have hpos : (0 : ℚ) < 10 ^ e := by positivity
  have hnext : ⌊magnitude n / 10 ^ e⌋₊ + 1 ≤ m :=
    (Nat.floor_lt (div_nonneg (magnitude_nonneg n) hpos.le)).2 ((div_lt_iff₀ hpos).2 (hm ▸ hgt))
  refine ⟨_, mem_neighbours.2 (.inr rfl), quanta_of_between hn hd (.inr ⟨?_, ?_⟩)⟩
  · rw [value, Nat.cast_succ]
    exact ((div_lt_iff₀ hpos).1 (Nat.lt_floor_add_one _)).le
  · rw [hm]
    exact mul_le_mul_of_nonneg_right (Nat.cast_le.2 hnext) hpos.le

/-- If some decimal of at most `k + 1` digits reads back, a neighbour of as many digits does. -/
theorem exists_neighbour (hn : spacing n ∣ n) (hn0 : n ≠ 0) {k : ℕ}
    (hc : d.coefficient < 10 ^ (k + 1)) (hd : d.quanta = n) :
    ∃ d' ∈ neighbours n (leadingExponent n - k), d'.quanta = n := by
  obtain ⟨hfirst, -⟩ := zpow_leadingExponent hn0
  obtain ⟨e, he⟩ : ∃ e, leadingExponent n - k = e := ⟨_, rfl⟩
  have htop : leadingExponent n = k + e := by omega
  rw [htop] at hfirst
  rw [he]
  obtain ⟨m, hm⟩ | hlt := value_cases hc e
  · obtain hle | hgt := le_or_gt d.value (magnitude n)
    · exact exists_neighbour_below hn hd hm.le (hm ▸ hle)
    · exact exists_neighbour_above hn hd hm hgt
  · -- The leading power of ten of the number lies between.
    have hpower : ((10 ^ k : ℕ) : ℚ) * 10 ^ e = 10 ^ (k + e) := by
      rw [zpow_add₀ (by norm_num), zpow_natCast]
      norm_cast
    exact exists_neighbour_below hn hd (hpower ▸ hlt.le) (hpower ▸ hfirst)

/-- On a grid that is finer than that of the format, the nearer neighbour reads back. -/
theorem exists_neighbour_of_fine (hn : spacing n ∣ n) {e : ℤ}
    (h : (twoPow 53 : ℚ) < magnitude n / 10 ^ e) : ∃ d ∈ neighbours n e, d.quanta = n := by
  have hpos : (0 : ℚ) < 10 ^ e := by positivity
  have hunit : 0 < quantaPerOne * tenPow e.toNat :=
    Nat.mul_pos (twoPow_pos oneExponent) (tenPow_pos _)
  have hround := (roundsTo_roundEven (n * tenPow (-e).toNat) hunit).1
  rw [magnitude_div] at hround
  refine ⟨_, List.mem_cons_self, ?_⟩
  apply nearest_eq_of_close (ratio_pos _) hn
  rw [ratio_div, value]
  generalize roundEven (n * tenPow (-e).toNat) (quantaPerOne * tenPow e.toNat) = near at hround ⊢
  -- In quanta, the grid has steps of `w`.
  obtain ⟨w, hw⟩ : ∃ w : ℚ, 10 ^ e * (quantaPerOne : ℚ) = w := ⟨_, rfl⟩
  have hw0 : 0 < w := hw ▸ mul_pos hpos cast_quantaPerOne_pos
  have hcount : (n : ℚ) = magnitude n / 10 ^ e * w := by
    rw [← hw, ← mul_assoc, div_mul_cancel₀ _ hpos.ne', magnitude_mul]
  have hfar : |near * 10 ^ e * (quantaPerOne : ℚ) - n| ≤ 1 / 2 * w := by
    rw [mul_assoc, hw, hcount, ← sub_mul, abs_mul, abs_of_pos hw0, abs_sub_comm]
    exact mul_le_mul_of_nonneg_right hround hw0.le
  have hnonneg : (0 : ℚ) ≤ 2 * twoPow 53 := mul_nonneg zero_le_two (Nat.cast_nonneg _)
  calc 2 * (twoPow 53 : ℚ) * |near * 10 ^ e * (quantaPerOne : ℚ) - n|
      ≤ 2 * twoPow 53 * (1 / 2 * w) := mul_le_mul_of_nonneg_left hfar hnonneg
    _ = twoPow 53 * w := by ring
    _ < magnitude n / 10 ^ e * w := mul_lt_mul_of_pos_right h hw0
    _ = n := hcount.symm

theorem exists_neighbour_seventeen (hn : spacing n ∣ n) (hn0 : n ≠ 0) :
    ∃ d ∈ neighbours n (leadingExponent n - 16), d.quanta = n := by
  obtain ⟨hfirst, -⟩ := zpow_leadingExponent hn0
  apply exists_neighbour_of_fine hn
  have hpos : (0 : ℚ) < 10 ^ (leadingExponent n - 16) := by positivity
  have hbits : (twoPow 53 : ℚ) < 10 ^ 16 := by
    rw [cast_twoPow]
    norm_num
  refine hbits.trans_le ?_
  have htop : ((16 : ℕ) : ℤ) + (leadingExponent n - 16) = leadingExponent n := by
    push_cast
    ring
  rw [le_div_iff₀ hpos, ← zpow_natCast, ← zpow_add₀ (by norm_num), htop]
  exact hfirst

/-! ## Significant digits -/

/-- The digits of a coefficient are its significant digits and zeros behind them. -/
theorem exists_toDigits (d : Decimal) :
    ∃ t, Nat.toDigits 10 d.coefficient = d.significantDigits ++ List.replicate t '0' := by
  have hsplit := List.takeWhile_append_dropWhile (p := (· == '0'))
    (l := (Nat.toDigits 10 d.coefficient).reverse)
  have hzeros : (Nat.toDigits 10 d.coefficient).reverse.takeWhile (· == '0') =
      List.replicate ((Nat.toDigits 10 d.coefficient).reverse.takeWhile (· == '0')).length '0' :=
    List.eq_replicate_of_mem fun c hc => by simpa using List.mem_takeWhile_imp hc
  rw [hzeros] at hsplit
  have hdigits := congrArg List.reverse hsplit
  rw [List.reverse_append, List.reverse_reverse, List.reverse_replicate] at hdigits
  exact ⟨_, hdigits.symm⟩

/-- The significant digits as a number. -/
def significand (d : Decimal) : ℕ := Nat.ofDigitChars 10 d.significantDigits 0

theorem exists_significand (d : Decimal) : ∃ t, d.coefficient = d.significand * 10 ^ t ∧
    (Nat.toDigits 10 d.coefficient).length = d.significantDigits.length + t := by
  obtain ⟨t, ht⟩ := d.exists_toDigits
  refine ⟨t, ?_, by simp [ht]⟩
  conv_lhs => rw [← Nat.ofDigitChars_ten_toDigits (n := d.coefficient), ht]
  rw [Nat.ofDigitChars_append, Nat.ofDigitChars_replicate_zero, mul_comm]
  rfl

theorem value_eq (d : Decimal) :
    d.value = d.significand * 10 ^ (d.topExponent + 1 - d.significantDigits.length) := by
  obtain ⟨t, hcoefficient, hlength⟩ := d.exists_significand
  have hexponent : d.topExponent + 1 - d.significantDigits.length = t + d.exponent := by
    rw [topExponent, hlength]
    push_cast
    ring
  rw [value, hexponent, zpow_add₀ (by norm_num), zpow_natCast]
  conv_lhs => rw [hcoefficient]
  push_cast
  ring

theorem significantDigits_ne_nil (h : d.coefficient ≠ 0) : d.significantDigits ≠ [] := by
  intro hnil
  obtain ⟨t, ht, -⟩ := d.exists_significand
  rw [significand, hnil, Nat.ofDigitChars_nil, Nat.zero_mul] at ht
  exact h ht

theorem significand_lt (h : d.coefficient ≠ 0) :
    d.significand < 10 ^ d.significantDigits.length := by
  obtain ⟨t, ht, hlength⟩ := d.exists_significand
  have hbound := (length_toDigits_bounds h).2
  rw [hlength, pow_add] at hbound
  conv_lhs at hbound => rw [ht]
  exact Nat.lt_of_mul_lt_mul_right hbound

/-- A zero at the end is not significant. -/
theorem significantDigits_mul_ten {c : ℕ} (hc : c ≠ 0) (e e' : ℤ) :
    significantDigits ⟨c * 10, e⟩ = significantDigits ⟨c, e'⟩ := by
  have hdigits : Nat.toDigits 10 (c * 10) = Nat.toDigits 10 c ++ ['0'] := by
    rw [Nat.toDigits_of_base_le (by norm_num) (by omega), Nat.mul_div_cancel c (by norm_num),
      Nat.mul_mod_left]
    rfl
  simp [significantDigits, hdigits]

theorem length_significantDigits_le {k : ℕ} (h : d.coefficient ≤ 10 ^ (k + 1)) :
    d.significantDigits.length ≤ k + 1 := by
  have hshort (c : ℕ) (e : ℤ) (hc : c < 10 ^ (k + 1)) :
      (significantDigits ⟨c, e⟩).length ≤ k + 1 := by
    obtain ⟨t, -, hlength⟩ := exists_significand ⟨c, e⟩
    have hdigits := (Nat.length_toDigits_le_iff (by norm_num) k.succ_pos).2 hc
    exact (Nat.le_add_right _ t).trans (hlength ▸ hdigits)
  obtain ⟨c, e⟩ := d
  obtain hlt | rfl := Nat.lt_or_eq_of_le h
  · exact hshort c e hlt
  · have hpow : 10 ^ k < 10 ^ (k + 1) := Nat.pow_lt_pow_succ (by norm_num)
    rw [pow_succ, significantDigits_mul_ten (by positivity) e e]
    exact hshort _ e hpow

/-! ## The search -/

theorem quanta_shortest (hn : spacing n ∣ n) : (shortest n).quanta = n := by
  rw [shortest]
  cases hfind : (candidates n).find? fun d => d.quanta == n with
  | none => exact quanta_exact hn
  | some d => simpa using List.find?_some hfind

/-- The search goes no further than the first grid with a neighbour that reads back. -/
theorem exists_shortest_mem {k : ℕ} (hk : k < 17)
    (h : ∃ d ∈ neighbours n (leadingExponent n - k), d.quanta = n) :
    ∃ i ≤ k, shortest n ∈ neighbours n (leadingExponent n - i) := by
  obtain ⟨d, hd, hquanta⟩ := h
  obtain ⟨j, hj⟩ : ∃ j, 17 = k + 1 + j := ⟨16 - k, by omega⟩
  have hsplit : candidates n =
      ((List.range (k + 1)).flatMap fun i : ℕ => neighbours n (leadingExponent n - i)) ++
        ((List.range j).map (k + 1 + ·)).flatMap fun i : ℕ =>
          neighbours n (leadingExponent n - i) := by
    rw [← List.flatMap_append, ← List.range_add, ← hj]
    rfl
  have hfound : (((List.range (k + 1)).flatMap fun i : ℕ =>
      neighbours n (leadingExponent n - i)).find? fun d => d.quanta == n).isSome := by
    rw [List.find?_isSome]
    exact ⟨d, List.mem_flatMap.2 ⟨k, List.mem_range.2 k.lt_succ_self, hd⟩, by simp [hquanta]⟩
  obtain ⟨first, hfirst⟩ := Option.isSome_iff_exists.1 hfound
  have hshortest : shortest n = first := by
    rw [shortest, hsplit, List.find?_append, hfirst]
    rfl
  obtain ⟨i, hi, hmem⟩ := List.mem_flatMap.1 (List.mem_of_find?_eq_some hfirst)
  exact ⟨i, Nat.lt_succ_iff.1 (List.mem_range.1 hi), hshortest ▸ hmem⟩

theorem coefficient_le_of_mem_neighbours (hn0 : n ≠ 0) {i : ℕ}
    (h : d ∈ neighbours n (leadingExponent n - i)) : d.coefficient ≤ 10 ^ (i + 1) := by
  obtain ⟨-, hlast⟩ := zpow_leadingExponent hn0
  have hfloor : ⌊magnitude n / 10 ^ (leadingExponent n - i)⌋₊ < 10 ^ (i + 1) := by
    have hpos : (0 : ℚ) < 10 ^ (leadingExponent n - i) := by positivity
    have hexponent : leadingExponent n + 1 = ((i + 1 : ℕ) : ℤ) + (leadingExponent n - i) := by
      push_cast
      ring
    rw [Nat.floor_lt (div_nonneg (magnitude_nonneg n) hpos.le), div_lt_iff₀ hpos]
    rw [hexponent, zpow_add₀ (by norm_num), zpow_natCast] at hlast
    exact_mod_cast hlast
  obtain rfl | rfl := mem_neighbours.1 h
  · exact hfloor.le
  · exact hfloor

/-- No decimal that reads back has fewer significant digits than the shortest. -/
theorem length_shortest_le (hn : spacing n ∣ n) (hn0 : n ≠ 0) (hd : d.quanta = n) :
    (shortest n).significantDigits.length ≤ d.significantDigits.length := by
  have hc : d.coefficient ≠ 0 := coefficient_ne_zero (hd ▸ hn0)
  obtain ⟨k, hk⟩ := Nat.exists_eq_succ_of_ne_zero
    (List.length_eq_zero_iff.not.2 (significantDigits_ne_nil hc))
  have hvalue : value ⟨d.significand, d.topExponent + 1 - d.significantDigits.length⟩ = d.value :=
    d.value_eq.symm
  have hneighbour := exists_neighbour hn hn0 (hk ▸ significand_lt hc)
    ((quanta_congr hvalue).trans hd)
  have hshort {j : ℕ} (hj : j < 17)
      (h : ∃ d ∈ neighbours n (leadingExponent n - j), d.quanta = n) :
      (shortest n).significantDigits.length ≤ j + 1 := by
    obtain ⟨i, hi, hmem⟩ := exists_shortest_mem hj h
    have := length_significantDigits_le (coefficient_le_of_mem_neighbours hn0 hmem)
    omega
  rw [hk]
  obtain hfew | hmany := lt_or_ge k 17
  · exact hshort hfew hneighbour
  · have hseventeen := hshort (j := 16) (by norm_num) (exists_neighbour_seventeen hn hn0)
    omega

end Decimal

end Reckon
