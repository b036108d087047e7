import Mathlib
import Reckon.Token.Lexeme

/-!
# The lexicon

The texts of each terminal, and of what is skipped between tokens, as regular languages.  A piece
at the front of a text is the longest of all prefixes that belong to some of them, and that is the
piece `Lexeme.first?` finds: `first?_eq_some_iff` and `first?_eq_none_iff`.
-/

open Computability

namespace Reckon

namespace Lexicon

/-- One character of a class. -/
def oneOf (p : Char → Bool) : Language Char := {cs | ∃ c, p c ∧ cs = [c]}

/-- A fixed word. -/
def word (s : String) : Language Char := {s.toList}

/-- One or more digits. -/
def digits : Language Char := oneOf Char.isDigit * (oneOf Char.isDigit)∗

/-- A power of ten behind a number. -/
def exponent : Language Char := (word "e" + word "E") * ((1 + (word "+" + word "-")) * digits)

/-- Digits with a point before, between or behind them. -/
def decimal : Language Char := digits * (word "." * (1 + digits)) + word "." * digits

/-- Numbers with a point or an exponent, and whole numbers. -/
def number : Language Char := (digits * exponent + decimal * (1 + exponent)) + digits

/-- Letters, digits and underscores that do not start with a digit. -/
def name : Language Char := oneOf Lexeme.isNameStart * (oneOf Lexeme.isNameRest)∗

/-- The characters that stand for themselves in a string. -/
def isPlain (c : Char) : Bool := c != '"' && c != '\\' && c != '\n'

/-- A character of a string, or a backslash with the character behind it. -/
def stringUnit : Language Char := oneOf isPlain + word "\\" * oneOf (· != '\n')

/-- Strings end at the first quote that has no backslash of its own. -/
def string : Language Char := word "\"" * (stringUnit∗ * word "\"")

/-- Blanks between tokens. -/
def blanks : Language Char := oneOf Lexeme.isSkipped * (oneOf Lexeme.isSkipped)∗

/-- Comments go on to the end of their line. -/
def comment : Language Char := word "#" * (oneOf (· != '\n'))∗

end Lexicon

/-- The texts of a terminal. -/
def Terminal.language : Terminal → Language Char
  | .number => Lexicon.number
  | .string => Lexicon.string
  | .name => Lexicon.name
  | .comparison =>
    Lexicon.word "==" + Lexicon.word "!=" + Lexicon.word "<=" + Lexicon.word ">=" +
      Lexicon.word "<" + Lexicon.word ">"
  | .plus => Lexicon.word "+"
  | .minus => Lexicon.word "-"
  | .star => Lexicon.word "*"
  | .slash => Lexicon.word "/"
  | .percent => Lexicon.word "%"
  | .caret => Lexicon.word "^"
  | .equals => Lexicon.word "="
  | .lparen => Lexicon.word "("
  | .rparen => Lexicon.word ")"
  | .print => Lexicon.word "print"
  | .separator => Lexicon.word ";" + Lexicon.word "\n" + Lexicon.word "\r\n"

/-- The texts of a terminal, or of what is skipped. -/
def Lexeme.language : Option Terminal → Language Char
  | none => Lexicon.blanks + Lexicon.comment
  | some kind => kind.language

namespace Lexicon

/-! ## Membership -/

theorem mem_word {s : String} {cs : List Char} : cs ∈ word s ↔ cs = s.toList := Iff.rfl

theorem mem_oneOf_star {p : Char → Bool} {cs : List Char} :
    cs ∈ (oneOf p)∗ ↔ ∀ c ∈ cs, p c := by
  constructor
  · rintro ⟨pieces, rfl, h⟩ c hc
    obtain ⟨piece, hpiece, hc⟩ := List.mem_flatten.1 hc
    obtain ⟨d, hd, rfl⟩ := h piece hpiece
    rw [List.mem_singleton] at hc
    exact hc ▸ hd
  · intro h
    refine ⟨cs.map fun c => [c], by rw [← List.flatMap_def, List.flatMap_singleton'], ?_⟩
    intro piece hpiece
    obtain ⟨c, hc, rfl⟩ := List.mem_map.1 hpiece
    exact ⟨c, h c hc, rfl⟩

theorem mem_oneOf_mul {p : Char → Bool} {l : Language Char} {cs : List Char} :
    cs ∈ oneOf p * l ↔ ∃ c rest, p c ∧ rest ∈ l ∧ cs = c :: rest := by
  rw [Language.mem_mul]
  constructor
  · rintro ⟨_, ⟨c, hc, rfl⟩, rest, hrest, rfl⟩
    exact ⟨c, rest, hc, hrest, rfl⟩
  · rintro ⟨c, rest, hc, hrest, rfl⟩
    exact ⟨[c], ⟨c, hc, rfl⟩, rest, hrest, rfl⟩

/-- Characters of one class followed by characters of another. -/
theorem mem_oneOf_mul_star {p q : Char → Bool} {cs : List Char} :
    cs ∈ oneOf p * (oneOf q)∗ ↔ ∃ c rest, p c ∧ (∀ d ∈ rest, q d) ∧ cs = c :: rest := by
  simp only [mem_oneOf_mul, mem_oneOf_star]

theorem mem_word_mul {s : String} {l : Language Char} {cs : List Char} :
    cs ∈ word s * l ↔ ∃ rest ∈ l, cs = s.toList ++ rest := by
  rw [Language.mem_mul]
  constructor
  · rintro ⟨_, rfl, rest, hrest, rfl⟩
    exact ⟨rest, hrest, rfl⟩
  · rintro ⟨rest, hrest, rfl⟩
    exact ⟨_, rfl, rest, hrest, rfl⟩

theorem mem_digits {cs : List Char} : cs ∈ digits ↔ cs ≠ [] ∧ ∀ c ∈ cs, c.isDigit := by
  rw [digits, mem_oneOf_mul_star]
  constructor
  · rintro ⟨c, rest, hc, hrest, rfl⟩
    exact ⟨List.cons_ne_nil _ _, List.forall_mem_cons.2 ⟨hc, hrest⟩⟩
  · rintro ⟨hne, h⟩
    obtain ⟨c, rest, rfl⟩ := List.exists_cons_of_ne_nil hne
    rw [List.forall_mem_cons] at h
    exact ⟨c, rest, h.1, h.2, rfl⟩

theorem mem_exponent {cs : List Char} :
    cs ∈ exponent ↔ ∃ c sign ds, (c = 'e' ∨ c = 'E') ∧ (sign = [] ∨ sign = ['+'] ∨ sign = ['-']) ∧
      ds ∈ digits ∧ cs = c :: (sign ++ ds) := by
  simp only [exponent, Language.mem_mul, Language.mem_add, Language.mem_one, mem_word]
  constructor
  · rintro ⟨_, hmark, _, ⟨sign, hsign, ds, hds, rfl⟩, rfl⟩
    obtain rfl | rfl := hmark
    · exact ⟨'e', sign, ds, .inl rfl, hsign, hds, rfl⟩
    · exact ⟨'E', sign, ds, .inr rfl, hsign, hds, rfl⟩
  · rintro ⟨c, sign, ds, hc, hsign, hds, rfl⟩
    refine ⟨[c], ?_, _, ⟨sign, hsign, ds, hds, rfl⟩, rfl⟩
    obtain rfl | rfl := hc
    · exact .inl rfl
    · exact .inr rfl

/-- A number is digits, or digits with a point among them, and may have an exponent. -/
theorem mem_number {cs : List Char} :
    cs ∈ number ↔ ∃ mantissa ending, cs = mantissa ++ ending ∧
      (mantissa ∈ digits ∨ mantissa ∈ decimal) ∧ (ending = [] ∨ ending ∈ exponent) := by
  simp only [number, Language.mem_add, Language.mem_mul, Language.mem_one]
  constructor
  · rintro ((⟨m, hm, e, he, rfl⟩ | ⟨m, hm, e, he, rfl⟩) | hm)
    · exact ⟨m, e, rfl, .inl hm, .inr he⟩
    · exact ⟨m, e, rfl, .inr hm, he⟩
    · exact ⟨cs, [], by simp, .inl hm, .inl rfl⟩
  · rintro ⟨m, e, rfl, hm | hm, rfl | he⟩
    · exact .inr (by simpa using hm)
    · exact .inl (.inl ⟨m, hm, e, he, rfl⟩)
    · exact .inl (.inr ⟨m, hm, [], .inl rfl, rfl⟩)
    · exact .inl (.inr ⟨m, hm, e, .inr he, rfl⟩)

/-- Digits around a point, at least one in all. -/
theorem mem_decimal {cs : List Char} :
    cs ∈ decimal ↔ ∃ whole fraction, cs = whole ++ '.' :: fraction ∧ (∀ c ∈ whole, c.isDigit) ∧
      (∀ c ∈ fraction, c.isDigit) ∧ (whole ≠ [] ∨ fraction ≠ []) := by
  simp only [decimal, Language.mem_add, Language.mem_mul, Language.mem_one, mem_word, mem_digits]
  constructor
  · rintro (⟨whole, ⟨hne, hw⟩, _, ⟨_, rfl, fraction, hf, rfl⟩, rfl⟩ | ⟨_, rfl, fraction, hf, rfl⟩)
    · refine ⟨whole, fraction, rfl, hw, ?_, .inl hne⟩
      obtain rfl | hf := hf
      · simp
      · exact hf.2
    · exact ⟨[], fraction, rfl, by simp, hf.2, .inr hf.1⟩
  · rintro ⟨whole, fraction, rfl, hw, hf, hne⟩
    by_cases hwhole : whole = []
    · subst hwhole
      exact .inr ⟨_, rfl, fraction, ⟨by simpa using hne, hf⟩, rfl⟩
    · refine .inl ⟨whole, ⟨hwhole, hw⟩, _, ⟨_, rfl, fraction, ?_, rfl⟩, rfl⟩
      by_cases hfraction : fraction = []
      · exact .inl hfraction
      · exact .inr ⟨hfraction, hf⟩

/-- The characters of numbers. -/
def numerals : List Char :=
  ['0', '1', '2', '3', '4', '5', '6', '7', '8', '9', '.', 'e', 'E', '+', '-']

theorem mem_numerals_of_isDigit {c : Char} (h : c.isDigit) : c ∈ numerals := by
  simp [Char.isDigit, UInt32.le_iff_toNat_le] at h
  obtain ⟨hlow, hhigh⟩ := h
  rw [← Char.ofNat_toNat c]
  interval_cases c.toNat <;> decide

theorem mem_numerals {cs : List Char} (h : cs ∈ number) : ∀ c ∈ cs, c ∈ numerals := by
  obtain ⟨mantissa, ending, rfl, hm, he⟩ := mem_number.1 h
  have hmantissa : ∀ c ∈ mantissa, c ∈ numerals := by
    obtain hm | hm := hm
    · exact fun c hc => mem_numerals_of_isDigit ((mem_digits.1 hm).2 c hc)
    · obtain ⟨whole, fraction, rfl, hw, hf, -⟩ := mem_decimal.1 hm
      rw [List.forall_mem_append, List.forall_mem_cons]
      exact ⟨fun c hc => mem_numerals_of_isDigit (hw c hc), by decide,
        fun c hc => mem_numerals_of_isDigit (hf c hc)⟩
  have hending : ∀ c ∈ ending, c ∈ numerals := by
    obtain rfl | he := he
    · simp
    · obtain ⟨mark, sign, ds, hmark, hsign, hds, rfl⟩ := mem_exponent.1 he
      rw [List.forall_mem_cons, List.forall_mem_append]
      refine ⟨?_, ?_, fun c hc => mem_numerals_of_isDigit ((mem_digits.1 hds).2 c hc)⟩
      · obtain rfl | rfl := hmark <;> decide
      · obtain rfl | rfl | rfl := hsign <;> simp [numerals]
  exact List.forall_mem_append.2 ⟨hmantissa, hending⟩

/-- The keyword is a name as well. -/
theorem print_mem_name : "print".toList ∈ name :=
  mem_oneOf_mul_star.2 ⟨'p', ['r', 'i', 'n', 't'], by decide, List.all_eq_true.1 rfl, rfl⟩

end Lexicon

open Lexicon

theorem Terminal.mem_comparison {cs : List Char} :
    cs ∈ Terminal.comparison.language ↔ cs = ['=', '='] ∨ cs = ['!', '='] ∨ cs = ['<', '='] ∨
      cs = ['>', '='] ∨ cs = ['<'] ∨ cs = ['>'] := by
  simp only [language, Language.mem_add, or_assoc]
  exact Iff.rfl

theorem Terminal.mem_separator {cs : List Char} :
    cs ∈ Terminal.separator.language ↔ cs = [';'] ∨ cs = ['\n'] ∨ cs = ['\r', '\n'] := by
  simp only [language, Language.mem_add, or_assoc]
  exact Iff.rfl

namespace Lexeme

/-! ## Numbers -/

theorem run_append {p : Char → Bool} {ds : List Char} (h : ∀ c ∈ ds, p c) (rest : List Char) :
    run p (ds ++ rest) = ds.length + run p rest := by
  simp [run, List.takeWhile_append_of_pos h]

theorem run_cons_of_not {p : Char → Bool} {c : Char} (h : p c = false) (rest : List Char) :
    run p (c :: rest) = 0 := by
  simp [run, h]

theorem exists_run (p : Char → Bool) (cs : List Char) :
    ∃ ds rest, cs = ds ++ rest ∧ ds.length = run p cs ∧ ∀ c ∈ ds, p c :=
  ⟨cs.takeWhile p, cs.dropWhile p, List.takeWhile_append_dropWhile.symm, rfl,
    List.all_eq_true.1 List.all_takeWhile⟩

theorem not_isDigit_of_sign {c d : Char} (hd : d = '+' ∨ d = '-') (hc : c.isDigit) : c ≠ d := by
  rintro rfl
  obtain rfl | rfl := hd <;> exact absurd hc (by decide)

theorem length_le_exponentLength {piece : List Char} (h : piece ∈ exponent) (rest : List Char) :
    piece.length ≤ exponentLength (piece ++ rest) := by
  obtain ⟨c, sign, ds, hc, hsign, hds, rfl⟩ := mem_exponent.1 h
  obtain ⟨hne, hdigits⟩ := mem_digits.1 hds
  obtain ⟨d, more, rfl⟩ := List.exists_cons_of_ne_nil hne
  have hrun := run_append hdigits rest
  have hd : d.isDigit := hdigits d (by simp)
  have hplus : d ≠ '+' := not_isDigit_of_sign (.inl rfl) hd
  have hminus : d ≠ '-' := not_isDigit_of_sign (.inr rfl) hd
  simp only [List.cons_append, List.length_cons] at hrun
  obtain rfl | rfl | rfl := hsign
  · simp [exponentLength, hc, hplus, hminus, hrun]
    omega
  · simp [exponentLength, hc, hrun]
    omega
  · simp [exponentLength, hc, hrun]
    omega

/-- The sign that an exponent may have. -/
theorem exists_sign (cs : List Char) :
    ∃ sign rest, cs = sign ++ rest ∧ (sign = [] ∨ sign = ['+'] ∨ sign = ['-']) ∧
      sign.length = if cs.head? = some '+' ∨ cs.head? = some '-' then 1 else 0 := by
  rcases cs with _ | ⟨c, cs⟩
  · exact ⟨[], [], rfl, .inl rfl, rfl⟩
  · by_cases hplus : c = '+'
    · exact ⟨['+'], cs, by rw [hplus]; rfl, .inr (.inl rfl), by simp [hplus]⟩
    · by_cases hminus : c = '-'
      · exact ⟨['-'], cs, by rw [hminus]; rfl, .inr (.inr rfl), by simp [hminus]⟩
      · exact ⟨[], c :: cs, rfl, .inl rfl, by simp [hplus, hminus]⟩

theorem exists_exponent {cs : List Char} (h : exponentLength cs ≠ 0) :
    ∃ piece rest, cs = piece ++ rest ∧ piece.length = exponentLength cs ∧ piece ∈ exponent := by
  cases cs with
  | nil => exact absurd rfl h
  | cons c cs =>
    by_cases hc : c = 'e' ∨ c = 'E'
    · obtain ⟨sign, tail, rfl, hsign, hlength⟩ := exists_sign cs
      obtain ⟨ds, rest, rfl, hrun, hdigits⟩ := exists_run Char.isDigit tail
      simp only [exponentLength, hc, if_true, ← hlength, List.drop_left, ← hrun] at h ⊢
      have hne : ds ≠ [] := by
        rintro rfl
        simp at h
      refine ⟨c :: (sign ++ ds), rest, by simp, ?_, ?_⟩
      · simp [hne]
        omega
      · exact mem_exponent.2 ⟨c, sign, ds, hc, hsign, mem_digits.2 ⟨hne, hdigits⟩, rfl⟩
    · simp [exponentLength, hc] at h

/-- What is behind the digits and the point of a number. -/
theorem exists_ending (cs : List Char) :
    ∃ ending rest, cs = ending ++ rest ∧ ending.length = exponentLength cs ∧
      (ending = [] ∨ ending ∈ exponent) := by
  by_cases h : exponentLength cs = 0
  · exact ⟨[], cs, rfl, h.symm, .inl rfl⟩
  · obtain ⟨piece, rest, hcs, hlength, hpiece⟩ := exists_exponent h
    exact ⟨piece, rest, hcs, hlength, .inr hpiece⟩

/-- Digits cut short go on with digits, and an exponent follows the last digit at once. -/
theorem length_le_of_ending {ending : List Char} (h : ending = [] ∨ ending ∈ exponent)
    (rest : List Char) :
    ending.length ≤ run Char.isDigit (ending ++ rest) +
      exponentLength ((ending ++ rest).drop (run Char.isDigit (ending ++ rest))) := by
  obtain rfl | h := h
  · exact Nat.zero_le _
  · have hle := length_le_exponentLength h rest
    obtain ⟨c, sign, ds, hc, -, -, rfl⟩ := mem_exponent.1 h
    have hdigit : c.isDigit = false := by
      obtain rfl | rfl := hc <;> decide
    rw [List.cons_append, run_cons_of_not hdigit, List.drop_zero, Nat.zero_add]
    exact hle

theorem length_le_numberLength {piece : List Char} (h : piece ∈ number) (rest : List Char) :
    piece.length ≤ numberLength (piece ++ rest) := by
  obtain ⟨mantissa, ending, rfl, hm, he⟩ := mem_number.1 h
  have hle := length_le_of_ending he rest
  rw [List.append_assoc, List.length_append]
  generalize ending ++ rest = behind at hle ⊢
  obtain hm | hm := hm
  · obtain ⟨hne, hdigits⟩ := mem_digits.1 hm
    have hpos := List.length_pos_iff.2 hne
    simp only [numberLength, run_append hdigits, List.drop_length_add_append]
    split
    · rename_i hdrop
      rw [hdrop, exponentLength, if_neg (by decide)] at hle
      rw [if_neg (by omega)]
      omega
    · rw [if_neg (by omega)]
      omega
  · obtain ⟨whole, fraction, rfl, hw, hf, hne⟩ := mem_decimal.1 hm
    have hpos : 0 < whole.length + fraction.length := by
      rw [← List.length_append, List.length_pos_iff]
      simpa [List.append_eq_nil_iff, ← not_or, imp_iff_not_or] using hne
    have hpoint : run Char.isDigit ('.' :: (fraction ++ behind)) = 0 :=
      run_cons_of_not (by decide) _
    simp only [numberLength, List.append_assoc, List.cons_append, run_append hw, run_append hf,
      hpoint, Nat.add_zero, List.drop_left, List.drop_length_add_append, List.length_append,
      List.length_cons]
    rw [if_neg (by omega)]
    omega

theorem exists_number {cs : List Char} (h : numberLength cs ≠ 0) :
    ∃ piece rest, cs = piece ++ rest ∧ piece.length = numberLength cs ∧ piece ∈ number := by
  obtain ⟨whole, tail, rfl, hrun, hw⟩ := exists_run Char.isDigit cs
  simp only [numberLength, ← hrun, List.drop_left] at h ⊢
  split at h
  · rename_i tail
    obtain ⟨fraction, behind, rfl, hfraction, hf⟩ := exists_run Char.isDigit tail
    obtain ⟨ending, rest, rfl, hlength, he⟩ := exists_ending behind
    simp only [← hfraction, List.drop_left, ← hlength] at h ⊢
    have hne : whole ≠ [] ∨ fraction ≠ [] := by
      by_contra hnil
      push Not at hnil
      simp [hnil] at h
    refine ⟨whole ++ '.' :: fraction ++ ending, rest, by simp, ?_, ?_⟩
    · split at h
      · exact absurd rfl h
      · rename_i hpos
        rw [if_neg hpos]
        simp only [List.length_append, List.length_cons]
        omega
    · have hmantissa : whole ++ '.' :: fraction ∈ decimal :=
        mem_decimal.2 ⟨whole, fraction, rfl, hw, hf, hne⟩
      exact mem_number.2 ⟨_, ending, rfl, .inr hmantissa, he⟩
  · obtain ⟨ending, rest, rfl, hlength, he⟩ := exists_ending tail
    have hne : whole ≠ [] := by
      rintro rfl
      simp at h
    refine ⟨whole ++ ending, rest, by simp, ?_, ?_⟩
    · rw [if_neg (by simpa using hne), ← hlength, List.length_append]
    · exact mem_number.2 ⟨whole, ending, rfl, .inl (mem_digits.2 ⟨hne, hw⟩), he⟩

/-! ## Strings -/

theorem stringRest?_append {body : List Char} (h : body ∈ stringUnit∗) (rest : List Char) :
    stringRest? (body ++ '"' :: rest) = some (body.length + 1) := by
  obtain ⟨units, rfl, hunits⟩ := h
  induction units with
  | nil => simp [stringRest?]
  | cons unit units ih =>
    rw [List.forall_mem_cons] at hunits
    specialize ih hunits.2
    rw [List.flatten_cons, List.append_assoc]
    obtain ⟨c, hc, rfl⟩ | hescape := hunits.1
    · simp only [isPlain, Bool.and_eq_true, bne_iff_ne] at hc
      rw [List.cons_append, List.nil_append, stringRest?.eq_5 _ _ hc.1.1 hc.2]
      · simp [ih]
      · intro _ _ hb _
        exact hc.1.2 hb
    · obtain ⟨_, ⟨c, hc, rfl⟩, rfl⟩ := mem_word_mul.1 hescape
      simp only [bne_iff_ne] at hc
      simp [stringRest?, hc, ih]

theorem cons_mem_stringUnit {unit body : List Char} (hu : unit ∈ stringUnit)
    (hb : body ∈ stringUnit∗) : unit ++ body ∈ stringUnit∗ := by
  obtain ⟨units, rfl, hunits⟩ := hb
  exact ⟨unit :: units, rfl, List.forall_mem_cons.2 ⟨hu, hunits⟩⟩

theorem exists_string {cs : List Char} {n : Nat} (h : stringRest? cs = some n) :
    ∃ body rest, cs = body ++ '"' :: rest ∧ body.length + 1 = n ∧ body ∈ stringUnit∗ := by
  fun_induction stringRest? cs generalizing n with
  | case1 => simp at h
  | case2 rest =>
    rw [Option.some.injEq] at h
    exact ⟨[], rest, rfl, h, Language.nil_mem_kstar _⟩
  | case3 => simp at h
  | case4 => simp at h
  | case5 c rest hc ih =>
    obtain ⟨m, hm, rfl⟩ := Option.map_eq_some_iff.1 h
    obtain ⟨body, behind, rfl, hlength, hbody⟩ := ih hm
    have hunit : ['\\', c] ∈ stringUnit :=
      .inr (mem_word_mul.2 ⟨[c], ⟨c, by simpa using hc, rfl⟩, rfl⟩)
    exact ⟨['\\', c] ++ body, behind, rfl, by simp [← hlength], cons_mem_stringUnit hunit hbody⟩
  | case6 c rest hquote hline hescape ih =>
    obtain ⟨m, hm, rfl⟩ := Option.map_eq_some_iff.1 h
    obtain ⟨body, behind, rfl, hlength, hbody⟩ := ih hm
    -- A backslash at the very end of the text would have no quote behind it.
    have hslash : c ≠ '\\' := by
      rintro rfl
      obtain ⟨d, more, hmore⟩ := List.exists_cons_of_ne_nil (l := body ++ '"' :: behind) (by simp)
      exact hescape d more rfl hmore
    have hunit : [c] ∈ stringUnit := .inl ⟨c, by simp_all [isPlain], rfl⟩
    exact ⟨[c] ++ body, behind, rfl, by simp [← hlength], cons_mem_stringUnit hunit hbody⟩

/-! ## Symbols -/

theorem first?_symbol {c : Char} {next : Option Char} (h : (symbol? c next).isSome)
    (rest : List Char) :
    first? (c :: rest) = (symbol? c rest.head?).map fun (kind, n) => (some kind, n) := by
  unfold symbol? at h
  split at h
  all_goals first
    | rfl
    | simp at h

theorem exists_symbol {c : Char} {rest : List Char} {kind : Terminal} {n : Nat}
    (h : symbol? c rest.head? = some (kind, n)) :
    ∃ piece behind, c :: rest = piece ++ behind ∧ piece.length = n ∧ piece ∈ kind.language := by
  unfold symbol? at h
  split at h
  all_goals try split at h
  all_goals simp only [Option.some.injEq, Prod.mk.injEq, reduceCtorEq] at h
  all_goals obtain ⟨rfl, rfl⟩ := h
  all_goals try obtain ⟨rest, rfl⟩ := List.head?_eq_some_iff.1 (by assumption)
  all_goals first
    | exact ⟨[_], rest, rfl, rfl, rfl⟩
    | exact ⟨[_], rest, rfl, rfl, by simp [Terminal.mem_comparison, Terminal.mem_separator]⟩
    | exact ⟨[_, _], rest, rfl, rfl, by simp [Terminal.mem_comparison, Terminal.mem_separator]⟩

/-! ## Classes of characters -/

/-- A class that holds of no blank leaves all of them out. -/
theorem isSkipped_eq_false {p : Char → Bool} {c : Char} (hc : p c)
    (h : p ' ' = false ∧ p '\t' = false ∧ p '\x0c' = false) : isSkipped c = false := by
  rw [Bool.eq_false_iff]
  intro hskipped
  simp only [isSkipped, Bool.or_eq_true, beq_iff_eq, or_assoc] at hskipped
  obtain rfl | rfl | rfl := hskipped <;> simp [h] at hc

theorem isNameStart_eq_false {c : Char} (h : c.isDigit || c == '.') : isNameStart c = false := by
  rw [Bool.or_eq_true, beq_iff_eq] at h
  obtain h | rfl := h
  · have hunderscore : c ≠ '_' := by
      rintro rfl
      exact absurd h (by decide)
    simp [Char.isDigit, isNameStart, Char.isAlpha, Char.isUpper, Char.isLower,
      UInt32.le_iff_toNat_le, hunderscore] at h ⊢
    omega
  · rfl

theorem first?_nameStart {c : Char} (h : isNameStart c) (rest : List Char) :
    first? (c :: rest) = some (some .name, 1 + run isNameRest rest) := by
  have hskipped : isSkipped c = false := isSkipped_eq_false h (by decide)
  have hcomment : c ≠ '#' := by
    rintro rfl
    exact absurd h (by decide)
  rw [first?, if_neg (by simp [hskipped]), if_neg hcomment, if_pos h]

theorem first?_digit {c : Char} (h : c.isDigit || c == '.') (rest : List Char) :
    first? (c :: rest) =
      if numberLength (c :: rest) = 0 then none
      else some (some .number, numberLength (c :: rest)) := by
  have hskipped : isSkipped c = false :=
    isSkipped_eq_false (p := fun c => c.isDigit || c == '.') h (by decide)
  have hcomment : c ≠ '#' := by
    rintro rfl
    exact absurd h (by decide)
  have hname := isNameStart_eq_false h
  rw [first?, if_neg (by simp [hskipped]), if_neg hcomment, if_neg (by simp [hname]), if_pos h]

/-! ## The longest piece -/

/-- The piece at the front of a text goes at least as far as a given one, and has its kind if it
goes no further. -/
def Reaches (kind : Option Terminal) (piece rest : List Char) : Prop :=
  ∃ found n, first? (piece ++ rest) = some (found, n) ∧ piece.length ≤ n ∧
    (n = piece.length → found = kind)

theorem reaches_of_first? {kind : Option Terminal} {piece rest : List Char} {n : Nat}
    (h : first? (piece ++ rest) = some (kind, n)) (hn : piece.length ≤ n) :
    Reaches kind piece rest :=
  ⟨kind, n, h, hn, fun _ => rfl⟩

theorem first?_of_symbol? {c : Char} {rest : List Char} {kind : Terminal} {n : Nat}
    (h : symbol? c rest.head? = some (kind, n)) : first? (c :: rest) = some (some kind, n) := by
  rw [first?_symbol (by rw [h]; rfl : (symbol? c rest.head?).isSome), h]
  rfl

/-- A symbol of one character may go on as a comparison. -/
theorem reaches_comparable {c : Char} {kind : Terminal} (rest : List Char)
    (h : symbol? c rest.head? =
      if rest.head? = some '=' then some (.comparison, 2) else some (kind, 1)) :
    Reaches (some kind) [c] rest := by
  by_cases heq : rest.head? = some '='
  · rw [if_pos heq] at h
    exact ⟨_, 2, first?_of_symbol? h, by simp, by simp⟩
  · rw [if_neg heq] at h
    exact reaches_of_first? (first?_of_symbol? h) le_rfl

theorem reaches_comparison {piece : List Char} (h : piece ∈ Terminal.comparison.language)
    (rest : List Char) : Reaches (some .comparison) piece rest := by
  obtain rfl | rfl | rfl | rfl | rfl | rfl := Terminal.mem_comparison.1 h
  · exact reaches_of_first? rfl le_rfl
  · exact reaches_of_first? rfl le_rfl
  · exact reaches_of_first? rfl le_rfl
  · exact reaches_of_first? rfl le_rfl
  · exact reaches_comparable rest rfl
  · exact reaches_comparable rest rfl

theorem reaches_separator {piece : List Char} (h : piece ∈ Terminal.separator.language)
    (rest : List Char) : Reaches (some .separator) piece rest := by
  obtain rfl | rfl | rfl := Terminal.mem_separator.1 h
  all_goals exact reaches_of_first? rfl le_rfl

theorem first?_blanks {piece : List Char} (h : piece ∈ blanks) (rest : List Char) :
    first? (piece ++ rest) = some (none, piece.length + run isSkipped rest) := by
  obtain ⟨c, more, hc, hmore, rfl⟩ := mem_oneOf_mul_star.1 h
  rw [List.cons_append, first?, if_pos hc, run_append hmore, List.length_cons]
  congr 2
  omega

theorem first?_comment {piece : List Char} (h : piece ∈ comment) (rest : List Char) :
    first? (piece ++ rest) = some (none, piece.length + run (· != '\n') rest) := by
  obtain ⟨more, hmore, rfl⟩ := mem_word_mul.1 h
  rw [mem_oneOf_star] at hmore
  have hfirst : first? ('#' :: (more ++ rest)) = some (none, 1 + run (· != '\n') (more ++ rest)) :=
    rfl
  rw [run_append hmore, ← Nat.add_assoc, Nat.add_comm 1] at hfirst
  exact hfirst

theorem first?_name {piece : List Char} (h : piece ∈ name) (rest : List Char) :
    first? (piece ++ rest) = some (some .name, piece.length + run isNameRest rest) := by
  obtain ⟨c, more, hc, hmore, rfl⟩ := mem_oneOf_mul_star.1 h
  rw [List.cons_append, first?_nameStart hc, run_append hmore, List.length_cons]
  congr 2
  omega

theorem first?_string {piece : List Char} (h : piece ∈ Lexicon.string) (rest : List Char) :
    first? (piece ++ rest) = some (some .string, piece.length) := by
  obtain ⟨_, hrest, rfl⟩ := mem_word_mul.1 h
  obtain ⟨body, hbody, quote, hquote, rfl⟩ := Language.mem_mul.1 hrest
  obtain rfl : quote = ['"'] := hquote
  have hfirst : first? ('"' :: (body ++ '"' :: rest)) =
      (stringRest? (body ++ '"' :: rest)).map fun n => (some .string, 1 + n) := rfl
  rw [stringRest?_append hbody] at hfirst
  simpa [Nat.add_comm] using hfirst

theorem exists_cons_of_number {piece : List Char} (h : piece ∈ number) :
    ∃ c tail, piece = c :: tail ∧ (c.isDigit || c == '.') := by
  obtain ⟨mantissa, ending, rfl, hm, -⟩ := mem_number.1 h
  obtain hm | hm := hm
  · obtain ⟨hne, hdigits⟩ := mem_digits.1 hm
    obtain ⟨c, tail, rfl⟩ := List.exists_cons_of_ne_nil hne
    exact ⟨c, tail ++ ending, rfl, by simp [hdigits c (by simp)]⟩
  · obtain ⟨whole, fraction, rfl, hw, -, -⟩ := mem_decimal.1 hm
    cases whole with
    | nil => exact ⟨'.', _, rfl, rfl⟩
    | cons c tail => exact ⟨c, _, rfl, by simp [hw c (by simp)]⟩

theorem first?_number {piece : List Char} (h : piece ∈ number) (rest : List Char) :
    first? (piece ++ rest) = some (some .number, numberLength (piece ++ rest)) := by
  have hle := length_le_numberLength h rest
  obtain ⟨c, tail, rfl, hc⟩ := exists_cons_of_number h
  rw [List.cons_append, List.length_cons] at hle
  rw [List.cons_append, first?_digit hc, if_neg (by omega)]

theorem reaches_of_mem {kind : Option Terminal} {piece : List Char} (h : piece ∈ language kind)
    (hprint : kind ≠ some .print) (rest : List Char) : Reaches kind piece rest := by
  rcases kind with _ | kind
  · obtain h | h := h
    · exact reaches_of_first? (first?_blanks h rest) (Nat.le_add_right _ _)
    · exact reaches_of_first? (first?_comment h rest) (Nat.le_add_right _ _)
  · cases kind with
    | number => exact reaches_of_first? (first?_number h rest) (length_le_numberLength h rest)
    | string => exact reaches_of_first? (first?_string h rest) le_rfl
    | name => exact reaches_of_first? (first?_name h rest) (Nat.le_add_right _ _)
    | comparison => exact reaches_comparison h rest
    | separator => exact reaches_separator h rest
    | print => contradiction
    | equals =>
      obtain rfl : piece = ['='] := h
      exact reaches_comparable rest rfl
    | _ =>
      cases show piece = [_] from h
      exact reaches_of_first? rfl le_rfl

theorem exists_piece {cs : List Char} {kind : Option Terminal} {n : Nat}
    (h : first? cs = some (kind, n)) :
    ∃ piece rest, cs = piece ++ rest ∧ piece.length = n ∧ piece ∈ language kind := by
  cases cs with
  | nil => simp [first?] at h
  | cons c rest =>
    rw [first?] at h
    split at h
    case isTrue hc =>
      obtain ⟨more, behind, rfl, hrun, hmore⟩ := exists_run isSkipped rest
      simp only [Option.some.injEq, Prod.mk.injEq, ← hrun] at h
      obtain ⟨rfl, rfl⟩ := h
      exact ⟨c :: more, behind, rfl, Nat.add_comm _ _,
        .inl (mem_oneOf_mul_star.2 ⟨c, more, hc, hmore, rfl⟩)⟩
    split at h
    case isTrue hc =>
      obtain ⟨more, behind, rfl, hrun, hmore⟩ := exists_run (· != '\n') rest
      simp only [Option.some.injEq, Prod.mk.injEq, ← hrun] at h
      obtain ⟨rfl, rfl⟩ := h
      exact ⟨c :: more, behind, rfl, Nat.add_comm _ _,
        .inr (mem_word_mul.2 ⟨more, mem_oneOf_star.2 hmore, by rw [hc]; rfl⟩)⟩
    split at h
    case isTrue hc =>
      obtain ⟨more, behind, rfl, hrun, hmore⟩ := exists_run isNameRest rest
      simp only [Option.some.injEq, Prod.mk.injEq, ← hrun] at h
      obtain ⟨rfl, rfl⟩ := h
      exact ⟨c :: more, behind, rfl, Nat.add_comm _ _,
        mem_oneOf_mul_star.2 ⟨c, more, hc, hmore, rfl⟩⟩
    split at h
    case isTrue =>
      split at h
      · cases h
      · rename_i hne
        simp only [Option.some.injEq, Prod.mk.injEq] at h
        obtain ⟨rfl, rfl⟩ := h
        exact exists_number hne
    split at h
    case isTrue hc =>
      obtain ⟨m, hm, hn⟩ := Option.map_eq_some_iff.1 h
      simp only [Prod.mk.injEq] at hn
      obtain ⟨rfl, rfl⟩ := hn
      obtain ⟨body, behind, rfl, rfl, hbody⟩ := exists_string hm
      refine ⟨c :: (body ++ ['"']), behind, by simp, ?_, ?_⟩
      · simp
        omega
      · exact mem_word_mul.2 ⟨_, Language.append_mem_mul hbody rfl, by rw [hc]; rfl⟩
    · obtain ⟨⟨found, m⟩, hm, hn⟩ := Option.map_eq_some_iff.1 h
      simp only [Prod.mk.injEq] at hn
      obtain ⟨rfl, rfl⟩ := hn
      exact exists_symbol hm

theorem first?_ne_print {cs : List Char} {n : Nat} : first? cs ≠ some (some .print, n) := by
  intro h
  obtain ⟨piece, rest, rfl, hlength, hpiece⟩ := exists_piece h
  obtain rfl : piece = ['p', 'r', 'i', 'n', 't'] := hpiece
  rw [List.cons_append, first?_nameStart (by decide)] at h
  simp at h

/-- No text of a terminal, of blanks or of a comment at the front of a text goes beyond `n`
characters. -/
def NoLonger (n : Nat) (cs : List Char) : Prop :=
  ∀ kind, ∀ piece ∈ language kind, piece <+: cs → piece.length ≤ n

theorem exists_first?_of_front {kind : Option Terminal} {piece cs : List Char}
    (h : piece ∈ language kind) (hfront : piece <+: cs) :
    ∃ found n, first? cs = some (found, n) ∧ piece.length ≤ n := by
  obtain ⟨rest, rfl⟩ := hfront
  by_cases hprint : kind = some .print
  · subst hprint
    obtain rfl : piece = "print".toList := h
    exact ⟨_, _, first?_name print_mem_name rest, Nat.le_add_right _ _⟩
  · obtain ⟨found, n, hfirst, hn, -⟩ := reaches_of_mem h hprint rest
    exact ⟨found, n, hfirst, hn⟩

theorem first?_eq_some_iff {cs : List Char} {kind : Option Terminal} {n : Nat} :
    first? cs = some (kind, n) ↔ kind ≠ some .print ∧ cs.take n ∈ language kind ∧
      n ≤ cs.length ∧ NoLonger n cs := by
  constructor
  · intro h
    obtain ⟨piece, rest, rfl, rfl, hpiece⟩ := exists_piece h
    refine ⟨?_, by rwa [List.take_left], by simp, ?_⟩
    · rintro rfl
      exact first?_ne_print h
    · intro other text htext hfront
      obtain ⟨found, m, hfirst, hm⟩ := exists_first?_of_front htext hfront
      rw [h] at hfirst
      cases hfirst
      exact hm
  · rintro ⟨hprint, hpiece, hn, hlongest⟩
    have hlength := List.length_take_of_le hn
    obtain ⟨found, m, hfirst, hm, hkind⟩ := reaches_of_mem hpiece hprint (cs.drop n)
    rw [List.take_append_drop] at hfirst
    obtain ⟨longer, rest, hcs, rfl, hlonger⟩ := exists_piece hfirst
    have hle := hlongest found longer hlonger (hcs ▸ List.prefix_append longer rest)
    rw [hlength] at hm hkind
    have heq : longer.length = n := Nat.le_antisymm hle hm
    rw [hfirst, hkind heq, heq]

theorem first?_eq_none_iff {cs : List Char} :
    first? cs = none ↔ ∀ kind, ∀ piece ∈ language kind, ¬ piece <+: cs := by
  constructor
  · intro h kind piece hpiece hfront
    obtain ⟨found, n, hfirst, -⟩ := exists_first?_of_front hpiece hfront
    rw [h] at hfirst
    cases hfirst
  · intro h
    by_contra hne
    obtain ⟨⟨kind, n⟩, hfirst⟩ := Option.ne_none_iff_exists'.1 hne
    obtain ⟨piece, rest, rfl, -, hpiece⟩ := exists_piece hfirst
    exact h kind piece hpiece (List.prefix_append piece rest)

end Lexeme

end Reckon
