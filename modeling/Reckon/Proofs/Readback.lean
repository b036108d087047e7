import Reckon.Interpretation
import Reckon.Proofs.Escapes
import Reckon.Proofs.Numerals
import Reckon.Proofs.Shortest

/-!
# Displayed numbers read back

The text of a finite number is a number token, behind a minus sign if the number is negative, and
its value is the number again: `interpret_display`.  Whole numbers are written with all their
digits and others as their shortest decimal, positionally or with an exponent.  Either way the text
is read as a decimal that is rounded to the number (`Decimal.denotes_text`).
-/

namespace Reckon

open Lexicon

namespace Numeral

variable {whole fraction ending : List Char} {e : ℤ} {v : ℚ}

/-- A text of a number token that is read as a decimal of the given value. -/
def Denotes (cs : List Char) (v : ℚ) : Prop :=
  cs ∈ number ∧ ∃ d, decimal? cs = some d ∧ d.value = v

/-- What may stand behind the digits of a number, with the power of ten that it adds. -/
def Ends (ending : List Char) (e : ℤ) : Prop :=
  (ending = [] ∨ ending ∈ exponent) ∧ exponent? ending = some e

theorem ends_nil : Ends [] 0 := ⟨.inl rfl, rfl⟩

theorem denotes_digits (hne : whole ≠ []) (hw : ∀ c ∈ whole, c.isDigit) (he : Ends ending e) :
    Denotes (whole ++ ending) (Nat.ofDigitChars 10 whole 0 * 10 ^ e) := by
  refine ⟨mem_number.2 ⟨whole, ending, rfl, .inl (mem_digits.2 ⟨hne, hw⟩), he.1⟩, ?_⟩
  rw [decimal?_digits hne hw he.1, he.2]
  exact ⟨_, rfl, rfl⟩

theorem denotes_point (hne : whole ≠ []) (hw : ∀ c ∈ whole, c.isDigit)
    (hf : ∀ c ∈ fraction, c.isDigit) (he : Ends ending e) :
    Denotes (whole ++ '.' :: fraction ++ ending)
      (Nat.ofDigitChars 10 (whole ++ fraction) 0 * 10 ^ (e - fraction.length)) := by
  have hdecimal : whole ++ '.' :: fraction ∈ decimal :=
    mem_decimal.2 ⟨whole, fraction, rfl, hw, hf, .inl hne⟩
  refine ⟨mem_number.2 ⟨_, ending, rfl, .inr hdecimal, he.1⟩, ?_⟩
  rw [decimal?_point hw hf (.inl hne) he.1, he.2]
  exact ⟨_, rfl, rfl⟩

end Numeral

/-! ## Layouts -/

namespace Layout

open Numeral

variable {digits : List Char} {top : ℤ}

theorem isDigit_replicate (k : ℕ) : ∀ c ∈ List.replicate k '0', c.isDigit := by
  intro c hc
  rw [List.eq_of_mem_replicate hc]
  rfl

theorem ofDigitChars_zeros (k : ℕ) (ds : List Char) :
    Nat.ofDigitChars 10 (List.replicate k '0' ++ ds) 0 = Nat.ofDigitChars 10 ds 0 := by
  rw [Nat.ofDigitChars_append, Nat.ofDigitChars_replicate_zero, Nat.mul_zero]

theorem ends_exponent (top : ℤ) : Ends ('e' :: exponent top) top := by
  obtain ⟨ds, hds⟩ : ∃ ds, List.replicate (2 - (Nat.toDigits 10 top.natAbs).length) '0' ++
      Nat.toDigits 10 top.natAbs = ds := ⟨_, rfl⟩
  have hmem : ds ∈ Lexicon.digits := by
    rw [← hds, mem_digits]
    refine ⟨by simp [Nat.toDigits_ne_nil], List.forall_mem_append.2 ⟨isDigit_replicate _, ?_⟩⟩
    exact fun c hc => Nat.isDigit_of_mem_toDigits (by norm_num) (by norm_num) hc
  have hvalue : natural? ds = some top.natAbs := by
    obtain ⟨hne, hdigits⟩ := mem_digits.1 hmem
    rw [natural?, if_pos (by simpa [hne] using hdigits), ← hds, ofDigitChars_zeros,
      Nat.ofDigitChars_ten_toDigits]
  have hexponent : exponent top = (if top < 0 then '-' else '+') :: ds := by
    rw [exponent, ← hds]
    rfl
  rw [hexponent]
  split
  · rename_i hneg
    refine ⟨.inr (mem_exponent.2 ⟨'e', ['-'], ds, .inl rfl, .inr (.inr rfl), hmem, rfl⟩), ?_⟩
    simp [exponent?, sign, hvalue, abs_of_neg hneg]
  · rename_i hpos
    refine ⟨.inr (mem_exponent.2 ⟨'e', ['+'], ds, .inl rfl, .inr (.inl rfl), hmem, rfl⟩), ?_⟩
    simp [exponent?, sign, hvalue, abs_of_nonneg (not_lt.1 hpos)]

/-- All digits are behind the point, with zeros between. -/
theorem denotes_behind (hd : ∀ c ∈ digits, c.isDigit) (k : ℕ) :
    Denotes ('0' :: '.' :: List.replicate k '0' ++ digits)
      (Nat.ofDigitChars 10 digits 0 * 10 ^ (-(k + digits.length) : ℤ)) := by
  have hpoint : Denotes (['0'] ++ '.' :: (List.replicate k '0' ++ digits) ++ []) _ :=
    denotes_point (by simp) (isDigit_replicate 1)
      (List.forall_mem_append.2 ⟨isDigit_replicate k, hd⟩) ends_nil
  have hvalue : Nat.ofDigitChars 10 (['0'] ++ (List.replicate k '0' ++ digits)) 0 =
      Nat.ofDigitChars 10 digits 0 :=
    (ofDigitChars_zeros 1 _).trans (ofDigitChars_zeros k digits)
  rw [hvalue] at hpoint
  simpa using hpoint

/-- All digits are in front of the point, with zeros behind them. -/
theorem denotes_before (hne : digits ≠ []) (hd : ∀ c ∈ digits, c.isDigit) (k : ℕ) :
    Denotes (digits ++ List.replicate k '0' ++ ['.', '0'])
      (Nat.ofDigitChars 10 digits 0 * 10 ^ k) := by
  have hpoint : Denotes (digits ++ List.replicate k '0' ++ '.' :: ['0'] ++ []) _ :=
    denotes_point (by simp [hne]) (List.forall_mem_append.2 ⟨hd, isDigit_replicate k⟩)
      (isDigit_replicate 1) ends_nil
  have hvalue : Nat.ofDigitChars 10 (digits ++ List.replicate k '0' ++ ['0']) 0 =
      Nat.ofDigitChars 10 digits 0 * 10 ^ (k + 1) := by
    have hzeros : List.replicate k '0' ++ ['0'] = List.replicate (k + 1) '0' :=
      List.replicate_succ'.symm
    rw [List.append_assoc, hzeros, Nat.ofDigitChars_append, Nat.ofDigitChars_replicate_zero,
      mul_comm]
  have hpower : (10 : ℚ) ^ (k + 1) * 10 ^ ((0 : ℤ) - ['0'].length) = 10 ^ k := by
    rw [List.length_singleton, pow_succ, mul_assoc]
    norm_num
  rw [hvalue, Nat.cast_mul, Nat.cast_pow, Nat.cast_ofNat, mul_assoc, hpower, List.append_nil]
    at hpoint
  exact hpoint

/-- There are digits on both sides of the point. -/
theorem denotes_across (hd : ∀ c ∈ digits, c.isDigit) {k : ℕ} (hk : k < digits.length)
    (hk0 : k ≠ 0) :
    Denotes (digits.take k ++ '.' :: digits.drop k)
      (Nat.ofDigitChars 10 digits 0 * 10 ^ (k - digits.length : ℤ)) := by
  have hwhole : digits.take k ≠ [] := by
    rw [Ne, List.take_eq_nil_iff, not_or]
    exact ⟨hk0, List.ne_nil_of_length_pos (by omega)⟩
  have hpoint : Denotes (digits.take k ++ '.' :: digits.drop k ++ []) _ :=
    denotes_point hwhole (fun c hc => hd c (List.mem_of_mem_take hc))
      (fun c hc => hd c (List.mem_of_mem_drop hc)) ends_nil
  have hexponent : (0 : ℤ) - (digits.drop k).length = k - digits.length := by
    rw [List.length_drop]
    push_cast [hk.le]
    ring
  rw [List.take_append_drop, hexponent, List.append_nil] at hpoint
  exact hpoint

theorem denotes_positional (hne : digits ≠ []) (hd : ∀ c ∈ digits, c.isDigit) (top : ℤ) :
    Denotes (positional digits top)
      (Nat.ofDigitChars 10 digits 0 * 10 ^ (top + 1 - digits.length)) := by
  rw [positional]
  split
  case isTrue hneg =>
    have hexponent : top + 1 - digits.length = -((-top - 1).toNat + digits.length : ℤ) := by omega
    rw [hexponent]
    exact denotes_behind hd _
  case isFalse hpos =>
    obtain ⟨k, rfl⟩ := Int.eq_ofNat_of_zero_le (not_lt.1 hpos)
    simp only [Int.toNat_natCast]
    obtain hfew | hmany := le_or_gt digits.length (k + 1)
    · have hexponent : (k + 1 - digits.length : ℤ) = (k + 1 - digits.length : ℕ) := by
        push_cast [hfew]
        ring
      rw [List.take_of_length_le hfew, List.drop_of_length_le hfew, hexponent, zpow_natCast]
      exact denotes_before hne hd _
    · have hzeros : k + 1 - (digits.take (k + 1)).length = 0 := by
        rw [List.length_take]
        omega
      have hrest : (digits.drop (k + 1)).isEmpty = false := by
        rw [List.isEmpty_eq_false_iff, Ne, List.drop_eq_nil_iff]
        omega
      rw [hzeros, hrest, List.replicate_zero, List.append_nil]
      exact_mod_cast denotes_across hd hmany k.succ_ne_zero

theorem denotes_scientific (hne : digits ≠ []) (hd : ∀ c ∈ digits, c.isDigit) (top : ℤ) :
    Denotes (scientific digits top)
      (Nat.ofDigitChars 10 digits 0 * 10 ^ (top + 1 - digits.length)) := by
  obtain ⟨c, rest, rfl⟩ := List.exists_cons_of_ne_nil hne
  rw [List.forall_mem_cons] at hd
  have hc : ∀ d ∈ [c], d.isDigit := List.forall_mem_singleton.2 hd.1
  have hexponent : top + 1 - ((c :: rest).length : ℤ) = top - rest.length := by
    rw [List.length_cons]
    push_cast
    ring
  rw [hexponent]
  cases rest with
  | nil => simpa [scientific] using denotes_digits (List.cons_ne_nil c []) hc (ends_exponent top)
  | cons d rest =>
    simpa [scientific] using denotes_point (List.cons_ne_nil c []) hc hd.2 (ends_exponent top)

end Layout

namespace Decimal

open Numeral

variable {d : Decimal} {n : ℕ}

theorem isDigit_significantDigits (d : Decimal) : ∀ c ∈ d.significantDigits, c.isDigit := by
  intro c hc
  obtain ⟨t, ht⟩ := d.exists_toDigits
  have hmem : c ∈ Nat.toDigits 10 d.coefficient := ht ▸ List.mem_append_left _ hc
  exact Nat.isDigit_of_mem_toDigits (by norm_num) (by norm_num) hmem

/-- The text of a decimal is read as a decimal of the same value. -/
theorem denotes_text (h : d.coefficient ≠ 0) : Denotes d.text d.value := by
  rw [value_eq, text]
  split
  · exact Layout.denotes_positional (significantDigits_ne_nil h) d.isDigit_significantDigits _
  · exact Layout.denotes_scientific (significantDigits_ne_nil h) d.isDigit_significantDigits _

end Decimal

/-- Whole numbers are written exactly. -/
theorem denotes_toDigits {n k : ℕ} (h : n = k * quantaPerOne) :
    Numeral.Denotes (Nat.toDigits 10 k) (magnitude n) := by
  have hdigits := Numeral.denotes_digits (Nat.toDigits_ne_nil (b := 10) (n := k))
    (fun c hc => Nat.isDigit_of_mem_toDigits (by norm_num) (by norm_num) hc) Numeral.ends_nil
  rw [List.append_nil, Nat.ofDigitChars_ten_toDigits, zpow_zero, mul_one] at hdigits
  rwa [h, magnitude, Nat.cast_mul, mul_div_cancel_right₀ _ cast_quantaPerOne_pos.ne']

/-- A text of the value of a decimal is read as the number that the decimal is rounded to. -/
theorem Numeral.Denotes.number_eq {text : String} {d : Decimal} {n : ℕ}
    (h : Denotes text.toList d.value) (hd : d.quanta = n) (fits : Fits n) :
    Literal.number text = .ok (.number (.finite false n fits)) := by
  obtain ⟨hmem, d', hread, hvalue⟩ := h
  have hquanta : d'.quanta = n := (Decimal.quanta_congr hvalue).trans hd
  rw [Literal.number, toBinary64?_eq hmem, hread, Option.map_some,
    Decimal.toBinary64_of_quanta hquanta fits]
  rfl

/-! ## Programs of one number -/

section

variable {engine : Engine} {numeral : String}

/-- A number at the end of a text is one token. -/
theorem Lexed.number {source : List Char} {tokens : List Token} {mark : Mark}
    (h : Lexed engine source tokens mark numeral.toList)
    (hnumeral : numeral.toList ∈ Terminal.number.language) :
    ∃ reached, Lexed engine source (tokens ++ [⟨.number, numeral, mark⟩]) reached [] := by
  have hlongest : Lexeme.NoLonger numeral.toList.length (numeral.toList ++ []) := by
    intro kind piece _ hfront
    rw [List.append_nil] at hfront
    exact hfront.length_le
  have hkeyword : Terminal.number = .print ↔
      numeral.toList = "print".toList ∧ engine.ExpectsKeyword tokens := by
    refine iff_of_false (by decide) ?_
    rintro ⟨hword, -⟩
    obtain ⟨c, tail, hcons, hc⟩ := Lexeme.exists_cons_of_number hnumeral
    rw [hword] at hcons
    cases hcons
    revert hc
    decide
  rw [← List.append_nil numeral.toList] at h
  have hall := h.token hnumeral hlongest hkeyword
  rw [String.ofList_toList] at hall
  exact ⟨_, hall⟩

theorem Scan.ofText_number (hnumeral : numeral.toList ∈ Terminal.number.language) :
    ofText engine numeral = ⟨[⟨.number, numeral, {}⟩], none⟩ := by
  have hstart : Lexed engine numeral.toList [] {} numeral.toList := .start
  obtain ⟨reached, hlexed⟩ := hstart.number hnumeral
  exact hlexed.ofText_eq

theorem Scan.ofText_negative (hnumeral : numeral.toList ∈ Terminal.number.language) :
    ofText engine ("-" ++ numeral) =
      ⟨[⟨.minus, "-", {}⟩, ⟨.number, numeral, ⟨1, 2⟩⟩], none⟩ := by
  have hsource : ("-" ++ numeral).toList = ['-'] ++ numeral.toList := by simp
  have hstart : Lexed engine ("-" ++ numeral).toList [] {} (['-'] ++ numeral.toList) := by
    rw [hsource]
    exact .start
  have hend : Lexeme.first? (['-'] ++ numeral.toList) = some (some .minus, 1) :=
    Lexeme.first?_of_symbol? rfl
  have hmem : ['-'] ∈ Terminal.minus.language := rfl
  have hminus := hstart.token hmem (Lexeme.first?_eq_some_iff.1 hend).2.2.2
    (iff_of_false (by decide) (by simp))
  obtain ⟨reached, hlexed⟩ := hminus.number hnumeral
  exact hlexed.ofText_eq

theorem interpret_number {x : Binary64} (hnumeral : numeral.toList ∈ Terminal.number.language)
    (hx : Literal.number numeral = .ok (.number x)) (env : Environment) :
    interpret engine.name numeral env = (.ok (.number x), env) ∧
      interpret engine.name ("-" ++ numeral) env = (.ok (.number x.neg), env) := by
  have hvalue (bindings : Bindings) :
      tokenValue bindings Terminal.number.label numeral = .ok (.number x) := hx
  constructor
  · rw [interpret_eq (Scan.ofText_number hnumeral) rfl]
    show evaluateIn env (.rule Rule.program.label
      [.token Terminal.number.label numeral (some ⟨1, some 1⟩)] (some ⟨1, some 1⟩)) = _
    simp only [evaluateIn, evaluate, nestingLimit, Node.eval, Room.enter?, Rule.ofLabel?_label,
      Node.evalChildren, hvalue]
    rfl
  · rw [interpret_eq (Scan.ofText_negative hnumeral) rfl]
    show evaluateIn env (.rule Rule.program.label
      [.rule Rule.neg.label [.token Terminal.minus.label "-" (some ⟨1, some 1⟩),
        .token Terminal.number.label numeral (some ⟨1, some 2⟩)] (some ⟨1, some 1⟩)]
          (some ⟨1, some 1⟩)) = _
    simp only [evaluateIn, evaluate, nestingLimit, Node.eval, Room.enter?, Rule.ofLabel?_label,
      Node.evalChildren, hvalue]
    rfl

end

/-! ## Display -/

namespace Binary64

variable {n : ℕ}

theorem withSign_true (cs : List Char) : withSign true cs = "-" ++ String.ofList cs := by
  rw [← String.toList_inj]
  simp [withSign]

theorem equal_shown (negative : Bool) (fits : Fits n) :
    (finite (negative && n != 0) n fits).equal (finite negative n fits) := by
  have hequal : (finite (negative && n != 0) n fits).equal (finite negative n fits) =
      (signed (negative && n != 0) n == signed negative n) := rfl
  rw [hequal, beq_iff_eq]
  cases negative with
  | false => rfl
  | true =>
    by_cases hn : n = 0
    · simp [hn, signed]
    · rw [bne_iff_ne.2 hn, Bool.and_true]

/-- The digits shown are those of the whole number, or of the shortest decimal. -/
theorem exists_numeral (negative : Bool) (fits : Fits n) :
    ∃ (cs : List Char) (d : Decimal),
      (finite negative n fits).display = withSign (negative && n != 0) cs ∧
      Numeral.Denotes cs d.value ∧ d.quanta = n ∧
      (∀ k, n = k * quantaPerOne → cs = Nat.toDigits 10 k) ∧
      (¬ quantaPerOne ∣ n → cs = d.text ∧ ∀ d' : Decimal, d'.quanta = n →
        d.significantDigits.length ≤ d'.significantDigits.length) := by
  by_cases hwhole : quantaPerOne ∣ n
  · obtain ⟨k, hk⟩ := hwhole
    rw [mul_comm] at hk
    have hdigits (j : ℕ) (hj : n = j * quantaPerOne) : Nat.toDigits 10 k = Nat.toDigits 10 j := by
      rw [Nat.mul_right_cancel (twoPow_pos oneExponent) (hk.symm.trans hj)]
    refine ⟨Nat.toDigits 10 k, Decimal.exact n, ?_, ?_, Decimal.quanta_exact fits.2, hdigits,
      fun h => absurd ⟨k, by rw [hk, mul_comm]⟩ h⟩
    · have hquotient : n / quantaPerOne = k := by
        rw [hk]
        exact Nat.mul_div_cancel k (twoPow_pos oneExponent)
      rw [display, if_pos (by rw [hk, Nat.mul_mod_left]), hquotient]
    · rw [Decimal.value_exact]
      exact denotes_toDigits hk
  · have hn : n ≠ 0 := by
      rintro rfl
      exact hwhole (dvd_zero _)
    have hquanta := Decimal.quanta_shortest fits.2
    have hcoefficient := Decimal.coefficient_ne_zero (hquanta.symm ▸ hn)
    refine ⟨(Decimal.shortest n).text, Decimal.shortest n, ?_, Decimal.denotes_text hcoefficient,
      hquanta, fun k hk => absurd ⟨k, by rw [hk, mul_comm]⟩ hwhole,
      fun _ => ⟨rfl, fun d' => Decimal.length_shortest_le fits.2 hn⟩⟩
    rw [display, if_neg fun h => hwhole (Nat.dvd_of_mod_eq_zero h), text, if_neg hn,
      bne_iff_ne.2 hn, Bool.and_true]

end Binary64

/-- The text of a finite number is an expression for it: one number token, with a minus sign in
front of it if the number is below zero, and its value is equal to the number.  A whole number is
written as an integer with all its digits, and any other as a decimal with the fewest significant
digits of all that are rounded to it. -/
theorem interpret_display (engine : Engine) (negative : Bool) {n : ℕ} (fits : Fits n)
    (env : Environment) :
    let x := Binary64.finite negative n fits
    let text := (Value.number x).display
    ∃ numeral : String,
      (if x.less (.zero false) then
        text = "-" ++ numeral ∧ Scan.ofText engine text =
          ⟨[⟨.minus, "-", {}⟩, ⟨.number, numeral, ⟨1, 2⟩⟩], none⟩
      else text = numeral ∧ Scan.ofText engine text = ⟨[⟨.number, numeral, {}⟩], none⟩) ∧
      (∃ y, interpret engine.name text env = (.ok (.number y), env) ∧ y.equal x) ∧
      (∀ k, n = k * quantaPerOne → numeral = toString k) ∧
      (¬ quantaPerOne ∣ n → ∃ d : Decimal, numeral = String.ofList d.text ∧ d.quanta = n ∧
        ∀ d' : Decimal, d'.quanta = n →
          d.significantDigits.length ≤ d'.significantDigits.length) := by
  intro x text
  obtain ⟨cs, d, hdisplay, hdenotes, hquanta, hwhole, hshortest⟩ :=
    Binary64.exists_numeral negative fits
  rw [← String.toList_ofList (l := cs)] at hdenotes
  have hmem : (String.ofList cs).toList ∈ Terminal.number.language := hdenotes.1
  have hnumber := hdenotes.number_eq hquanta fits
  obtain ⟨hread, hreadNegative⟩ := interpret_number hmem hnumber env
  have hsign : x.less (.zero false) = (negative && n != 0) := Binary64.less_zero negative fits
  have hequal : (Binary64.finite (negative && n != 0) n fits).equal x :=
    Binary64.equal_shown negative fits
  have htext : text = Binary64.withSign (negative && n != 0) cs := hdisplay
  rw [htext, hsign]
  generalize (negative && n != 0) = shown at hequal
  refine ⟨String.ofList cs, ?_, ⟨_, ?_, hequal⟩, ?_, ?_⟩
  · cases shown with
    | true =>
      rw [if_pos rfl, Binary64.withSign_true]
      exact ⟨rfl, Scan.ofText_negative hmem⟩
    | false => exact ⟨rfl, Scan.ofText_number hmem⟩
  · cases shown with
    | true => rw [Binary64.withSign_true, hreadNegative]; rfl
    | false => exact hread
  · intro k hk
    rw [hwhole k hk, Nat.toString_eq_ofList_toDigits]
  · intro hfraction
    obtain ⟨hform, hfewest⟩ := hshortest hfraction
    exact ⟨d, by rw [hform], hquanta, hfewest⟩

theorem fits_one : Fits 1 := fits_twoPow (show 0 < topExponent by decide)

/-- The number next to zero on the negative side. -/
def leastNegative : Binary64 := .finite true 1 fits_one

theorem interpret_leastNegative :
    (Value.number leastNegative).display = "-5e-324" ∧
      Scan.ofText .earley "-5e-324" =
        ⟨[⟨.minus, "-", {}⟩, ⟨.number, "5e-324", ⟨1, 2⟩⟩], none⟩ ∧
      ∃ y, interpret "earley" "-5e-324" {} = (.ok (.number y), {}) ∧ y.equal leastNegative := by
  have hdisplay : (Value.number leastNegative).display = "-" ++ "5e-324" := by decide +kernel
  have hless : leastNegative.less (.zero false) := by decide +kernel
  obtain ⟨numeral, htokens, hvalue, -⟩ := interpret_display .earley true fits_one {}
  obtain ⟨htext, hscan⟩ := (if_pos hless).mp htokens
  have hnumeral : numeral = "5e-324" :=
    (String.append_right_inj "-").1 (htext.symm.trans hdisplay)
  subst hnumeral
  rw [htext] at hscan hvalue
  exact ⟨hdisplay, hscan, hvalue⟩

end Reckon
