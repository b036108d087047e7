import Reckon.Proofs.Lexing
import Reckon.Proofs.Spelling

/-!
# Laying out words

The texts that lists of words may be laid out as: blanks between the words of a statement, and
separators between statements and at both ends, where a comment may stand before a newline.
Scanning such a text gives the words back.
-/

open Computability

namespace Reckon

open Lexeme Lexicon

namespace Layout

/-- Any number of blanks. -/
def spaces : Language Char := (oneOf isSkipped)∗

/-- A separator, or a comment and the newline behind it. -/
def lineEnd : Language Char := Terminal.separator.language + comment * Lexicon.word "\n"

/-- Any number of separators. -/
def breaks : Language Char := spaces * (lineEnd * spaces)∗

/-- One or more separators. -/
def someBreaks : Language Char := spaces * (lineEnd * breaks)

/-- The words of a statement, with blanks between them. -/
def sentence : List Word → Language Char
  | [] => 1
  | [w] => Lexicon.word w.text
  | w :: rest => Lexicon.word w.text * (blanks * sentence rest)

/-- Statements with separators between them and behind the last. -/
def sentences : List (List Word) → Language Char
  | [] => 1
  | [s] => sentence s * breaks
  | s :: rest => sentence s * (someBreaks * sentences rest)

/-- The texts of a program with the given statements. -/
def page (statements : List (List Word)) : Language Char := breaks * sentences statements

/-! ## Where words end -/

/-- The characters that may follow a word. -/
def boundary : List Char := [' ', '\t', '\x0c', '#', ';', '\n', '\r']

/-- A text that starts with such a character, or is empty. -/
def Bounded (rest : List Char) : Prop := ∀ c ∈ rest.head?, c ∈ boundary

theorem bounded_nil : Bounded [] := by simp [Bounded]

theorem Bounded.run_eq_zero {rest : List Char} (h : Bounded rest) {p : Char → Bool}
    (hp : boundary.all fun c => !p c) : run p rest = 0 := by
  cases rest with
  | nil => rfl
  | cons c rest =>
    have hc := List.all_eq_true.1 hp c (h c rfl)
    exact run_cons_of_not (by simpa using hc) rest

theorem Bounded.numberLength_eq {piece rest : List Char} (h : piece ∈ number) (hb : Bounded rest) :
    numberLength (piece ++ rest) = piece.length := by
  have hle := length_le_numberLength h rest
  obtain ⟨c, tail, hpiece, -⟩ := exists_cons_of_number h
  have hpos : 0 < piece.length := by simp [hpiece]
  have hne : numberLength (piece ++ rest) ≠ 0 := by omega
  obtain ⟨longer, behind, hcs, hlength, hlonger⟩ := exists_number hne
  -- A longer number would go on with the character behind the piece.
  obtain ⟨more, hmore, hrest⟩ | ⟨more, hmore, hrest⟩ := List.append_eq_append_iff.1 hcs
  · cases more with
    | nil => rw [← hlength, hmore, List.append_nil]
    | cons c more =>
      have hnumeral := mem_numerals hlonger c (by simp [hmore])
      have hboundary : c ∈ boundary := hb c (by simp [hrest])
      have hnone : boundary.all (· ∉ numerals) := by decide
      have hc := List.all_eq_true.1 hnone c hboundary
      exact absurd hnumeral (by simpa using hc)
  · have hshorter := congrArg List.length hmore
    rw [List.length_append] at hshorter
    omega

theorem Bounded.head?_ne {rest : List Char} (h : Bounded rest) : rest.head? ≠ some '=' := by
  intro heq
  exact absurd (h '=' heq) (by decide)

/-- A word with a boundary behind it is the first piece. -/
theorem Bounded.first?_eq {kind : Terminal} {piece rest : List Char} (hb : Bounded rest)
    (h : piece ∈ kind.language) (hprint : kind ≠ .print) :
    first? (piece ++ rest) = some (some kind, piece.length) := by
  cases kind with
  | number => rw [first?_number h, hb.numberLength_eq h]
  | string => exact first?_string h rest
  | name => rw [first?_name h, hb.run_eq_zero (by decide)]; rfl
  | comparison =>
    obtain rfl | rfl | rfl | rfl | rfl | rfl := Terminal.mem_comparison.1 h
    · rfl
    · rfl
    · rfl
    · rfl
    · exact first?_of_symbol? (if_neg hb.head?_ne)
    · exact first?_of_symbol? (if_neg hb.head?_ne)
  | separator => obtain rfl | rfl | rfl := Terminal.mem_separator.1 h <;> rfl
  | print => contradiction
  | equals =>
    obtain rfl : piece = ['='] := h
    exact first?_of_symbol? (if_neg hb.head?_ne)
  | _ =>
    cases show piece = [_] from h
    rfl

end Layout

namespace Scan

variable {engine : Engine} {start : Bool}

/-! ## Scanning -/

/-- Scanning the first text gives some words, and goes on with the second. -/
def Yields (engine : Engine) (start : Bool) (cs : List Char) (ws : List Word) (next : Bool)
    (rest : List Char) : Prop :=
  ∀ mark, ∃ tokens reached, tokens.map Token.word = ws ∧
    ofChars engine start mark cs =
      ⟨tokens ++ (ofChars engine next reached rest).tokens,
        (ofChars engine next reached rest).stuck⟩

theorem Yields.refl (cs : List Char) : Yields engine start cs [] start cs :=
  fun mark => ⟨[], mark, rfl, rfl⟩

theorem Yields.trans {next last : Bool} {cs ds rest : List Char} {us vs : List Word}
    (h : Yields engine start cs us next ds) (h' : Yields engine next ds vs last rest) :
    Yields engine start cs (us ++ vs) last rest := by
  intro mark
  obtain ⟨tokens, reached, rfl, hcs⟩ := h mark
  obtain ⟨more, final, rfl, hds⟩ := h' reached
  refine ⟨tokens ++ more, final, List.map_append, ?_⟩
  rw [hcs, hds, List.append_assoc]

theorem yields_blank {c : Char} (h : isSkipped c) (rest : List Char) :
    Yields engine start (c :: rest) [] start rest := by
  intro mark
  refine ⟨[], mark.next c, rfl, ?_⟩
  have hfirst : first? (c :: rest) = some (none, 1 + run isSkipped rest) := by
    rw [first?, if_pos h]
  rw [ofChars_skipped hfirst, Nat.add_comm, List.take_succ_cons, List.drop_succ_cons]
  -- Blanks that follow are skipped with this one or on their own.
  cases rest with
  | nil => rfl
  | cons d rest =>
    by_cases hd : isSkipped d
    · have hrest : first? (d :: rest) = some (none, 1 + run isSkipped rest) := by
        rw [first?, if_pos hd]
      rw [ofChars_skipped hrest]
      simp [run, hd, Mark.after, Nat.add_comm]
    · rw [run_cons_of_not (by simpa using hd)]
      rfl

theorem yields_spaces {piece : List Char} (h : piece ∈ Layout.spaces) (rest : List Char) :
    Yields engine start (piece ++ rest) [] start rest := by
  rw [Layout.spaces, mem_oneOf_star] at h
  induction piece with
  | nil => exact .refl rest
  | cons c piece ih =>
    rw [List.forall_mem_cons] at h
    exact (yields_blank h.1 (piece ++ rest)).trans (ih h.2)

theorem yields_comment {piece : List Char} (h : piece ∈ comment) (rest : List Char) :
    Yields engine start (piece ++ '\n' :: rest) [] start ('\n' :: rest) := by
  intro mark
  refine ⟨[], mark.after piece, rfl, ?_⟩
  have hfirst := first?_comment h ('\n' :: rest)
  rw [run_cons_of_not (by decide), Nat.add_zero] at hfirst
  rw [ofChars_skipped hfirst, List.take_left, List.drop_left]
  rfl

/-- A word and what follows it. -/
theorem yields_piece {kind : Terminal} {piece rest : List Char} {found : Terminal}
    (h : piece ∈ kind.language) (hfirst : first? (piece ++ rest) = some (some found, piece.length))
    (hprint : kind = .print ↔ piece = "print".toList ∧ engine.readsKeyword start) :
    Yields engine start (piece ++ rest) [⟨kind, String.ofList piece⟩] (endsStatement kind)
      rest := by
  intro mark
  have hlongest := (first?_eq_some_iff.1 hfirst).2.2.2
  exact ⟨[⟨kind, String.ofList piece, mark⟩], mark.after piece, rfl,
    ofChars_token h hlongest hprint mark⟩

theorem yields_separator {piece : List Char} (h : piece ∈ Terminal.separator.language)
    (rest : List Char) :
    Yields engine start (piece ++ rest) [⟨.separator, String.ofList piece⟩] true rest := by
  have hfirst : first? (piece ++ rest) = some (some .separator, piece.length) := by
    obtain rfl | rfl | rfl := Terminal.mem_separator.1 h <;> rfl
  refine yields_piece h hfirst (iff_of_false (by simp) ?_)
  rintro ⟨rfl, -⟩
  obtain h | h := Lexeme.kind_of_print h <;> cases h

theorem yields_word {kind : Terminal} {text : String} {rest : List Char} (h : kind.Spells text)
    (hprint : kind = .print → start) (hb : Layout.Bounded rest) :
    Yields engine start (text.toList ++ rest) [⟨kind, text⟩] (endsStatement kind) rest := by
  have hreads : kind = .print ↔ text.toList = "print".toList ∧ engine.readsKeyword start := by
    constructor
    · rintro rfl
      refine ⟨h.1, ?_⟩
      rw [hprint rfl]
      cases engine <;> rfl
    · rintro ⟨htext, -⟩
      have hkind : "print".toList ∈ kind.language := htext ▸ h.1
      refine (Lexeme.kind_of_print hkind).resolve_right fun hname => ?_
      exact h.2 hname (String.toList_inj.1 htext)
  have hfirst : ∃ found, first? (text.toList ++ rest) = some (some found, text.toList.length) := by
    by_cases hkind : kind = .print
    · have hname : text.toList ∈ Terminal.name.language := by
        rw [(hreads.1 hkind).1]
        exact print_mem_name
      exact ⟨_, hb.first?_eq hname (by simp)⟩
    · exact ⟨kind, hb.first?_eq h.1 hkind⟩
  obtain ⟨found, hfound⟩ := hfirst
  have hyields := yields_piece h.1 hfound hreads
  rwa [String.ofList_toList] at hyields

theorem yields_lineEnd {piece : List Char} (h : piece ∈ Layout.lineEnd) (rest : List Char) :
    ∃ text, Yields engine start (piece ++ rest) [⟨.separator, text⟩] true rest := by
  obtain h | h := h
  · exact ⟨_, yields_separator h rest⟩
  · obtain ⟨before, hbefore, newline, hnewline, rfl⟩ := Language.mem_mul.1 h
    obtain rfl : newline = ['\n'] := hnewline
    have hseparator : ['\n'] ∈ Terminal.separator.language :=
      Terminal.mem_separator.2 (.inr (.inl rfl))
    rw [List.append_assoc]
    exact ⟨_, (yields_comment hbefore rest).trans (yields_separator hseparator rest)⟩

/-- Words that are all separators. -/
def AllSeparators (ws : List Word) : Prop := ∀ word ∈ ws, word.kind = .separator

theorem yields_lines {lines : List (List Char)}
    (h : ∀ line ∈ lines, line ∈ Layout.lineEnd * Layout.spaces) (rest : List Char) :
    ∃ ws next, AllSeparators ws ∧ (start = true → next = true) ∧
      Yields engine start (lines.flatten ++ rest) ws next rest := by
  induction lines generalizing start with
  | nil => exact ⟨[], start, by simp [AllSeparators], id, .refl rest⟩
  | cons line lines ih =>
    rw [List.forall_mem_cons] at h
    obtain ⟨ended, hended, after, hafter, rfl⟩ := Language.mem_mul.1 h.1
    obtain ⟨text, hline⟩ := yields_lineEnd hended (after ++ (lines.flatten ++ rest))
    obtain ⟨ws, next, hws, hnext, hlines⟩ := ih h.2
    rw [List.flatten_cons, List.append_assoc, List.append_assoc]
    exact ⟨⟨.separator, text⟩ :: ws, next, List.forall_mem_cons.2 ⟨rfl, hws⟩, fun _ => hnext rfl,
      hline.trans ((yields_spaces hafter _).trans hlines)⟩

theorem yields_breaks {piece : List Char} (h : piece ∈ Layout.breaks) (rest : List Char) :
    ∃ ws next, AllSeparators ws ∧ (start = true → next = true) ∧
      Yields engine start (piece ++ rest) ws next rest := by
  obtain ⟨before, hbefore, _, ⟨lines, rfl, hlines⟩, rfl⟩ := Language.mem_mul.1 h
  obtain ⟨ws, next, hws, hnext, hyields⟩ := yields_lines hlines rest
  rw [List.append_assoc]
  exact ⟨ws, next, hws, hnext, (yields_spaces hbefore _).trans hyields⟩

theorem yields_someBreaks {piece : List Char} (h : piece ∈ Layout.someBreaks) (rest : List Char) :
    ∃ text ws, AllSeparators ws ∧
      Yields engine start (piece ++ rest) (⟨.separator, text⟩ :: ws) true rest := by
  obtain ⟨before, hbefore, _, hafter, rfl⟩ := Language.mem_mul.1 h
  obtain ⟨ended, hended, after, hbreaks, rfl⟩ := Language.mem_mul.1 hafter
  obtain ⟨text, hline⟩ := yields_lineEnd hended (after ++ rest)
  obtain ⟨ws, next, hws, hnext, hbreaks⟩ := yields_breaks hbreaks rest
  obtain rfl := hnext rfl
  rw [List.append_assoc, List.append_assoc]
  exact ⟨text, ws, hws, (yields_spaces hbefore _).trans (hline.trans hbreaks)⟩

end Scan

namespace Layout

/-! ## Statements -/

theorem bounded_of_isSkipped {c : Char} (h : isSkipped c) (rest : List Char) :
    Bounded (c :: rest) := by
  simp only [isSkipped, Bool.or_eq_true, beq_iff_eq, or_assoc] at h
  intro d hd
  obtain rfl : c = d := by simpa using hd
  obtain rfl | rfl | rfl := h <;> decide

theorem bounded_blanks {piece : List Char} (h : piece ∈ blanks) (rest : List Char) :
    Bounded (piece ++ rest) := by
  obtain ⟨c, more, hc, -, rfl⟩ := mem_oneOf_mul_star.1 h
  exact bounded_of_isSkipped hc _

theorem mem_spaces_of_blanks {piece : List Char} (h : piece ∈ blanks) : piece ∈ spaces := by
  obtain ⟨c, more, hc, hmore, rfl⟩ := mem_oneOf_mul_star.1 h
  exact mem_oneOf_star.2 (List.forall_mem_cons.2 ⟨hc, hmore⟩)

theorem Bounded.spaces {piece rest : List Char} (hb : Bounded rest) (h : piece ∈ spaces) :
    Bounded (piece ++ rest) := by
  cases piece with
  | nil => exact hb
  | cons c piece => exact bounded_of_isSkipped (mem_oneOf_star.1 h c (by simp)) _

theorem bounded_lineEnd {piece : List Char} (h : piece ∈ lineEnd) (rest : List Char) :
    Bounded (piece ++ rest) := by
  obtain h | h := h
  · obtain rfl | rfl | rfl := Terminal.mem_separator.1 h
    all_goals
      intro c hc
      cases hc
      decide
  · obtain ⟨_, hbefore, _, -, rfl⟩ := Language.mem_mul.1 h
    obtain ⟨more, -, rfl⟩ := mem_word_mul.1 hbefore
    intro c hc
    cases hc
    decide

theorem bounded_breaks {piece : List Char} (h : piece ∈ breaks) : Bounded piece := by
  obtain ⟨before, hbefore, _, ⟨lines, rfl, hlines⟩, rfl⟩ := Language.mem_mul.1 h
  refine Bounded.spaces ?_ hbefore
  cases lines with
  | nil => exact bounded_nil
  | cons line lines =>
    obtain ⟨ended, hended, after, -, rfl⟩ := Language.mem_mul.1 (hlines line (by simp))
    rw [List.flatten_cons, List.append_assoc]
    exact bounded_lineEnd hended _

theorem bounded_someBreaks {piece : List Char} (h : piece ∈ someBreaks) (rest : List Char) :
    Bounded (piece ++ rest) := by
  obtain ⟨before, hbefore, _, hafter, rfl⟩ := Language.mem_mul.1 h
  obtain ⟨ended, hended, after, -, rfl⟩ := Language.mem_mul.1 hafter
  rw [List.append_assoc, List.append_assoc]
  exact (bounded_lineEnd hended _).spaces hbefore

end Layout

namespace Scan

open Layout

variable {engine : Engine} {start : Bool}

theorem yields_sentence {us : List Word} {piece rest : List Char}
    (hus : ∀ word ∈ us, word.kind.Spells word.text)
    (hstart : ∀ word ∈ us.head?, word.kind = .print → start = true)
    (htail : ∀ word ∈ us.tail, word.kind ≠ .print) (h : piece ∈ sentence us)
    (hb : Bounded rest) : ∃ next, Yields engine start (piece ++ rest) us next rest := by
  induction us generalizing start piece with
  | nil =>
    obtain rfl : piece = [] := h
    exact ⟨start, .refl rest⟩
  | cons word us ih =>
    rw [List.forall_mem_cons] at hus
    have hword := hstart word rfl
    cases us with
    | nil =>
      obtain rfl : piece = word.text.toList := h
      exact ⟨_, yields_word hus.1 hword hb⟩
    | cons second us =>
      obtain ⟨_, hbehind, rfl⟩ := mem_word_mul.1 h
      obtain ⟨gap, hgap, more, hmore, rfl⟩ := Language.mem_mul.1 hbehind
      have hsecond : second.kind ≠ .print := htail second (by simp)
      have hrest : ∃ next, Yields engine (endsStatement word.kind) (more ++ rest) (second :: us)
          next rest := by
        refine ih hus.2 ?_ (fun other hother => htail other (List.mem_cons_of_mem _ hother)) hmore
        rintro _ ⟨⟩ hprint
        exact absurd hprint hsecond
      obtain ⟨next, hyields⟩ := hrest
      have hfirst : Yields engine start (word.text.toList ++ (gap ++ (more ++ rest))) [word]
          (endsStatement word.kind) (gap ++ (more ++ rest)) :=
        yields_word hus.1 hword (bounded_blanks hgap _)
      rw [List.append_assoc, List.append_assoc]
      exact ⟨next, hfirst.trans ((yields_spaces (mem_spaces_of_blanks hgap) _).trans hyields)⟩

end Scan

end Reckon
