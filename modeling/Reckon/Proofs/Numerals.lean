import Reckon.Decimal.Numeral
import Reckon.Proofs.Lexicon

/-!
# Number tokens are numerals

The texts of number tokens are read as decimals: `toBinary64?_eq`.  They hold no blanks, no
underscores and no digits of other scripts, so what is read is the text as it stands.
-/

namespace Reckon.Numeral

open Lexicon

variable {cs : List Char}

theorem dropWhile_isBlank (h : ∀ c ∈ cs, c ∈ numerals) : cs.dropWhile isBlank = cs := by
  cases cs with
  | nil => rfl
  | cons c cs =>
    have hnone : numerals.all fun d => !isBlank d := by decide
    have hc : isBlank c = false := by simpa using List.all_eq_true.1 hnone c (h c (by simp))
    rw [List.dropWhile_cons, hc]
    rfl

theorem trim_eq (h : ∀ c ∈ cs, c ∈ numerals) : trim cs = cs := by
  have hreverse : ∀ c ∈ cs.reverse, c ∈ numerals := fun c hc => h c (List.mem_reverse.1 hc)
  rw [trim, dropWhile_isBlank h, dropWhile_isBlank hreverse, List.reverse_reverse]

theorem map_asciiDigit (h : ∀ c ∈ cs, c ∈ numerals) : cs.map asciiDigit = cs := by
  have hsame : numerals.all fun c => asciiDigit c == c := by decide
  have hid : ∀ c ∈ cs, asciiDigit c = id c := by
    intro c hc
    simpa using List.all_eq_true.1 hsame c (h c hc)
  rw [List.map_congr_left hid, List.map_id]

theorem joinDigits_eq (h : ∀ c ∈ cs, c ∈ numerals) (afterDigit : Bool) :
    joinDigits afterDigit cs = some cs := by
  induction cs generalizing afterDigit with
  | nil => rfl
  | cons c cs ih =>
    rw [List.forall_mem_cons] at h
    have hunderscore : c ≠ '_' := by
      rintro rfl
      exact absurd h.1 (by decide)
    rw [joinDigits, if_neg hunderscore, ih h.2]
    rfl

theorem prepare_eq {text : String} (h : ∀ c ∈ text.toList, c ∈ numerals) :
    prepare text = some text.toList := by
  rw [prepare, trim_eq h, map_asciiDigit h, joinDigits_eq h]

theorem sign_of_digit {c : Char} (h : c.isDigit || c == '.') :
    sign (c :: cs) = (false, c :: cs) := by
  unfold sign
  split
  · rename_i heq
    cases heq
    simp at h
  · rename_i heq
    cases heq
    simp at h
  · rfl

theorem natural?_isSome (h : cs ∈ digits) : (natural? cs).isSome := by
  obtain ⟨hne, hdigits⟩ := mem_digits.1 h
  rw [natural?, if_pos]
  · rfl
  · simpa [hne] using hdigits

theorem exponent?_isSome (h : cs = [] ∨ cs ∈ exponent) : (exponent? cs).isSome := by
  obtain rfl | h := h
  · rfl
  · obtain ⟨c, sg, ds, hc, hsg, hds, rfl⟩ := mem_exponent.1 h
    have hsign : (sign (sg ++ ds)).2 = ds := by
      obtain rfl | rfl | rfl := hsg
      · obtain ⟨hne, hdigits⟩ := mem_digits.1 hds
        obtain ⟨d, more, rfl⟩ := List.exists_cons_of_ne_nil hne
        rw [List.nil_append, sign_of_digit (by simp [hdigits d])]
      · rfl
      · rfl
    obtain ⟨n, hn⟩ := Option.isSome_iff_exists.1 (natural?_isSome hds)
    rw [exponent?, if_pos hc, hsign, hn]
    rfl

theorem takeWhile_digits {ds rest : List Char} (h : ∀ c ∈ ds, c.isDigit)
    (hrest : Lexeme.run Char.isDigit rest = 0) :
    (ds ++ rest).takeWhile Char.isDigit = ds ∧ (ds ++ rest).dropWhile Char.isDigit = rest := by
  have hnone : rest.takeWhile Char.isDigit = [] := List.length_eq_zero_iff.1 hrest
  have hall : rest.dropWhile Char.isDigit = rest := by
    conv_rhs => rw [← List.takeWhile_append_dropWhile (p := Char.isDigit) (l := rest), hnone]
    rfl
  rw [List.takeWhile_append_of_pos h, List.dropWhile_append_of_pos h, hnone, hall, List.append_nil]
  exact ⟨rfl, rfl⟩

theorem run_ending (h : cs = [] ∨ cs ∈ exponent) : Lexeme.run Char.isDigit cs = 0 := by
  obtain rfl | h := h
  · rfl
  · obtain ⟨c, sg, ds, hc, -, -, rfl⟩ := mem_exponent.1 h
    obtain rfl | rfl := hc <;> rfl

theorem decimal?_digits {whole ending : List Char} (hne : whole ≠ []) (hw : ∀ c ∈ whole, c.isDigit)
    (he : ending = [] ∨ ending ∈ exponent) :
    decimal? (whole ++ ending) =
      (exponent? ending).map fun e => ⟨Nat.ofDigitChars 10 whole 0, e⟩ := by
  obtain ⟨htake, hdrop⟩ := takeWhile_digits hw (run_ending he)
  have hpoint : ∀ rest, ending ≠ '.' :: rest := by
    rintro rest rfl
    obtain h | h := he
    · cases h
    · obtain ⟨c, sg, ds, hc, -, -, heq⟩ := mem_exponent.1 h
      cases heq
      simp at hc
  simp only [decimal?, htake, hdrop]
  simp [hne]

theorem decimal?_point {whole fraction ending : List Char} (hw : ∀ c ∈ whole, c.isDigit)
    (hf : ∀ c ∈ fraction, c.isDigit) (hne : whole ≠ [] ∨ fraction ≠ [])
    (he : ending = [] ∨ ending ∈ exponent) :
    decimal? (whole ++ '.' :: fraction ++ ending) = (exponent? ending).map fun e =>
      ⟨Nat.ofDigitChars 10 (whole ++ fraction) 0, e - fraction.length⟩ := by
  have hpoint : Lexeme.run Char.isDigit ('.' :: (fraction ++ ending)) = 0 := rfl
  obtain ⟨htake, hdrop⟩ := takeWhile_digits hw hpoint
  obtain ⟨htake', hdrop'⟩ := takeWhile_digits hf (run_ending he)
  have hempty : (whole.isEmpty && fraction.isEmpty) = false := by
    obtain hne | hne := hne <;> simp [hne]
  rw [List.append_assoc, List.cons_append]
  simp only [decimal?, htake, hdrop, htake', hdrop', hempty]
  rfl

theorem decimal?_isSome (h : cs ∈ number) : (decimal? cs).isSome := by
  obtain ⟨mantissa, ending, rfl, hm, he⟩ := mem_number.1 h
  obtain hm | hm := hm
  · obtain ⟨hne, hdigits⟩ := mem_digits.1 hm
    rw [decimal?_digits hne hdigits he, Option.isSome_map]
    exact exponent?_isSome he
  · obtain ⟨whole, fraction, rfl, hw, hf, hne⟩ := mem_decimal.1 hm
    rw [decimal?_point hw hf hne he, Option.isSome_map]
    exact exponent?_isSome he

/-- No word for infinity or the undefined number starts as number tokens do. -/
theorem ofList_toLower_ne {c : Char} (h : c.isDigit || c == '.') (tail : List Char) {word : String}
    (hword : word.toList.head? = some 'i' ∨ word.toList.head? = some 'n') :
    String.ofList ((c :: tail).map Char.toLower) ≠ word := by
  rintro rfl
  have hc : c ∈ numerals := by
    obtain h | h := Bool.or_eq_true_iff.1 h
    · exact mem_numerals_of_isDigit h
    · rw [beq_iff_eq.1 h]
      decide
  have hnone : numerals.all fun c => c.toLower != 'i' && c.toLower != 'n' := by decide
  have hlower := List.all_eq_true.1 hnone c hc
  simp only [String.toList_ofList, List.map_cons, List.head?_cons, Option.some.injEq] at hword
  obtain h | h := hword <;> simp [h] at hlower

/-- The text of a number token is read as a decimal. -/
theorem toBinary64?_eq {text : String} (h : text.toList ∈ number) :
    toBinary64? text = (decimal? text.toList).map (·.toBinary64 false) := by
  obtain ⟨c, tail, hcs, hc⟩ := Lexeme.exists_cons_of_number h
  have hinf := ofList_toLower_ne hc tail (.inl rfl : "inf".toList.head? = some 'i' ∨ _)
  have hinfinity := ofList_toLower_ne hc tail (.inl rfl : "infinity".toList.head? = some 'i' ∨ _)
  have hnan := ofList_toLower_ne hc tail (.inr rfl : _ ∨ "nan".toList.head? = some 'n')
  rw [toBinary64?, prepare_eq (mem_numerals h), hcs]
  simp only [Option.bind_eq_bind, Option.bind_some, sign_of_digit hc, unsigned?]
  rw [if_neg (not_or.2 ⟨hinf, hinfinity⟩), if_neg hnan]

theorem toBinary64?_isSome {text : String} (h : text.toList ∈ number) :
    (toBinary64? text).isSome := by
  rw [toBinary64?_eq h, Option.isSome_map]
  exact decimal?_isSome h

end Reckon.Numeral
