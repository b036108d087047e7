import Reckon.Proofs.Engines
import Reckon.Proofs.Joining
import Reckon.Proofs.Modes
import Reckon.Proofs.Positions

/-!
# Line endings

A text keeps its meaning when every newline gets a carriage return in front of it (`crlf`).  The
return is part of the separator that the newline is, and nothing else in the text moves.  Behind a
comment it is different: the comment takes the return, and the newline stands one column further
right (`EndsComment`).  So the tokens are the same but for their separators (`Lexed.inCrlf`), and a
program is read into the same statements, or rejected with the same fault (`parse_crlf`).
-/

open Computability

namespace Reckon

open Lexeme Lexicon

/-! ## Returns -/

/-- Characters with a carriage return in front of every newline. -/
def crlfChars (cs : List Char) : List Char :=
  cs.flatMap fun c => if c = '\n' then ['\r', '\n'] else [c]

/-- A text with a carriage return in front of every newline. -/
def crlf (text : String) : String := .ofList (crlfChars text.toList)

@[simp] theorem toList_crlf (text : String) : (crlf text).toList = crlfChars text.toList :=
  String.toList_ofList

@[simp] theorem crlfChars_append (cs ds : List Char) :
    crlfChars (cs ++ ds) = crlfChars cs ++ crlfChars ds :=
  List.flatMap_append

theorem crlfChars_newline (cs : List Char) :
    crlfChars ('\n' :: cs) = '\r' :: '\n' :: crlfChars cs := rfl

theorem crlfChars_of_not_mem {cs : List Char} (h : '\n' ∉ cs) : crlfChars cs = cs := by
  have hsingle : ∀ c ∈ cs, (if c = '\n' then ['\r', '\n'] else [c]) = [c] := by
    intro c hc
    rw [if_neg]
    rintro rfl
    exact h hc
  rw [crlfChars, List.flatMap_congr hsingle, List.flatMap_singleton']

/-! ## Pieces -/

theorem Lexicon.mem_comment {cs : List Char} :
    cs ∈ comment ↔ ∃ rest, '\n' ∉ rest ∧ cs = '#' :: rest := by
  simp only [comment, mem_word_mul, mem_oneOf_star]
  constructor
  · rintro ⟨rest, hrest, rfl⟩
    exact ⟨rest, fun hn => absurd (hrest _ hn) (by decide), rfl⟩
  · rintro ⟨rest, hrest, rfl⟩
    refine ⟨rest, fun c hc => ?_, rfl⟩
    rw [bne_iff_ne]
    rintro rfl
    exact hrest hc

/-- Only a comment ends with a carriage return. -/
theorem Lexeme.comment_of_return {kind : Option Terminal} {front : List Char}
    (h : front ++ ['\r'] ∈ language kind) : front ∈ comment := by
  have hlast : (front ++ ['\r']).getLast? = some '\r' := List.getLast?_concat
  have hreturn : '\r' ∈ front ++ ['\r'] := by simp
  have hcomment : front ++ ['\r'] ∈ comment := by
    generalize front ++ ['\r'] = piece at h hlast hreturn
    cases kind with
    | none =>
      obtain h | h := h
      · exact absurd hreturn (not_mem_of_class h rfl rfl)
      · exact h
    | some kind =>
      cases kind with
      | number => exact absurd (mem_numerals h _ hreturn) (by decide)
      | name => exact absurd hreturn (not_mem_of_class h rfl rfl)
      | string =>
        obtain ⟨_, ⟨body, -, quote, hquote, rfl⟩, rfl⟩ := mem_word_mul.1 h
        obtain rfl : quote = ['"'] := hquote
        have hquoted : (('"' :: body) ++ ['"']).getLast? = some '\r' := hlast
        rw [List.getLast?_concat] at hquoted
        simp at hquoted
      | comparison =>
        obtain rfl | rfl | rfl | rfl | rfl | rfl := Terminal.mem_comparison.1 h <;> simp at hlast
      | separator => obtain rfl | rfl | rfl := Terminal.mem_separator.1 h <;> simp at hlast
      | _ =>
        have hword : piece = String.toList _ := h
        rw [hword] at hreturn
        exact absurd hreturn (by decide)
  obtain ⟨rest, hrest, htext⟩ := mem_comment.1 hcomment
  cases front with
  | nil => cases htext
  | cons c front =>
    rw [List.cons_append, List.cons.injEq] at htext
    obtain ⟨rfl, rfl⟩ := htext
    exact mem_comment.2 ⟨front, fun hn => hrest (List.mem_append_left _ hn), rfl⟩

/-- The pieces at the front of a text with returns: those of the text itself, the newline with its
return, and a comment with the return of the newline behind it. -/
theorem Lexeme.prefix_crlfChars_cases {kind : Option Terminal} {piece cs : List Char}
    (hpiece : piece ∈ language kind) (h : piece <+: crlfChars cs) :
    piece <+: cs ∨ (piece = ['\r', '\n'] ∧ ∃ rest, cs = '\n' :: rest) ∨
      ∃ front rest, piece = front ++ ['\r'] ∧ front ∈ comment ∧ cs = front ++ '\n' :: rest := by
  by_cases hn : '\n' ∈ cs
  · obtain ⟨line, rest, rfl, hline⟩ := List.eq_append_cons_of_mem hn
    rw [crlfChars_append, crlfChars_of_not_mem hline, crlfChars_newline] at h
    have hreturn : line ++ ['\r'] <+: line ++ '\r' :: '\n' :: crlfChars rest := by simp
    have hend : line ++ ['\r', '\n'] <+: line ++ '\r' :: '\n' :: crlfChars rest := by simp
    by_cases hlength : piece.length ≤ (line ++ ['\r']).length
    · obtain rfl | hfront :=
        List.prefix_concat_iff.1 (List.prefix_of_prefix_length_le h hreturn hlength)
      · exact .inr (.inr ⟨line, rest, rfl, comment_of_return hpiece, rfl⟩)
      · exact .inl (hfront.trans (List.prefix_append _ _))
    · -- The piece holds the newline, and with its return that is all there is of it.
      rw [List.length_append, List.length_singleton] at hlength
      have hover : line ++ ['\r', '\n'] <+: piece :=
        List.prefix_of_prefix_length_le hend h (by simp; omega)
      obtain rfl | rfl := eq_lineEnd_of_mem hpiece (hover.subset (by simp))
      · simp at hlength
      · have hempty : line = [] := by
          rw [← List.length_eq_zero_iff]
          simpa using hover.length_le
        exact .inr (.inl ⟨rfl, rest, by rw [hempty, List.nil_append]⟩)
  · rw [crlfChars_of_not_mem hn] at h
    exact .inl h

namespace Lexeme.NoLonger

variable {kind : Option Terminal} {piece rest : List Char}

/-- A piece does not grow by the returns behind it. -/
theorem before_returns (h : NoLonger piece.length (piece ++ rest)) (hline : '\n' ∉ piece)
    (hcomment : piece ∈ comment → rest.head? ≠ some '\n') :
    NoLonger piece.length (piece ++ crlfChars rest) := by
  intro other longer hlonger hfront
  have hreturns : longer <+: crlfChars (piece ++ rest) := by
    rwa [crlfChars_append, crlfChars_of_not_mem hline]
  obtain hsame | ⟨rfl, more, hmore⟩ | ⟨front, more, rfl, hshorter, hmore⟩ :=
    prefix_crlfChars_cases hlonger hreturns
  · exact h other longer hlonger hsame
  · have hnewline : ['\n'] ∈ language (some .separator) :=
      Terminal.mem_separator.2 (.inr (.inl rfl))
    have hone := h _ _ hnewline (by simp [hmore])
    cases piece with
    | nil => cases hone
    | cons c piece =>
      cases hmore
      exact absurd List.mem_cons_self hline
  · have hle := h none front (.inr hshorter) (by simp [hmore])
    obtain hlt | heq := hle.lt_or_eq
    · simpa using hlt
    · obtain ⟨rfl, rfl⟩ := List.append_inj hmore heq.symm
      exact absurd rfl (hcomment hshorter)

/-- A comment takes the return behind it. -/
theorem with_return (h : NoLonger piece.length (piece ++ '\n' :: rest))
    (hcomment : piece ∈ comment) :
    NoLonger (piece.length + 1) (piece ++ '\r' :: '\n' :: crlfChars rest) := by
  intro other longer hlonger hfront
  obtain ⟨text, htext, rfl⟩ := mem_comment.1 hcomment
  have hline : '\n' ∉ '#' :: text := by simp [htext]
  have hreturns : longer <+: crlfChars ('#' :: text ++ '\n' :: rest) := by
    rwa [crlfChars_append, crlfChars_of_not_mem hline]
  obtain hsame | ⟨rfl, -⟩ | ⟨front, more, rfl, hshorter, hmore⟩ :=
    prefix_crlfChars_cases hlonger hreturns
  · exact (h other longer hlonger hsame).trans (Nat.le_succ _)
  · simp
  · simpa using h none front (.inr hshorter) (by simp [hmore])

end Lexeme.NoLonger

theorem Lexeme.eq_separator_of_mem {kind : Terminal} {piece : List Char}
    (h : piece ∈ kind.language) (hn : '\n' ∈ piece) : kind = .separator := by
  have hlexeme : piece ∈ language (some kind) := h
  have hprint : some kind ≠ some .print := by
    rintro ⟨⟩
    rw [mem_word.1 h] at hn
    exact absurd hn (by decide)
  have hfirst : first? (piece ++ []) = some (some .separator, piece.length) := by
    obtain rfl | rfl := eq_lineEnd_of_mem hlexeme hn <;> rfl
  obtain ⟨found, n, hfound, -, hkind⟩ := reaches_of_mem hlexeme hprint []
  rw [hfirst] at hfound
  cases hfound
  exact (Option.some.inj (hkind rfl)).symm

/-! ## Newlines behind comments -/

/-- Whether a mark of a text is that of a newline right behind a comment. -/
def EndsComment (engine : Engine) (source : List Char) (mark : Mark) : Prop :=
  ∃ tokens start text rest, Lexed engine source tokens start (text ++ '\n' :: rest) ∧
    text ∈ comment ∧ mark = start.after text

/-- One piece cut off the front of a text. -/
def Lexeme.Cuts (cs rest : List Char) : Prop :=
  ∃ kind n, first? cs = some (kind, n) ∧ rest = cs.drop n

namespace Lexeme.Cuts

variable {a b c cs : List Char}

theorem length_lt (h : Cuts a b) : b.length < a.length := by
  obtain ⟨kind, n, hfirst, rfl⟩ := h
  exact length_drop_lt hfirst

theorem rightUnique : Relator.RightUnique Cuts := by
  rintro a b c ⟨kind, n, hb, rfl⟩ ⟨kind', n', hc, rfl⟩
  rw [hb] at hc
  cases hc
  rfl

theorem length_le (h : Relation.ReflTransGen Cuts a b) : b.length ≤ a.length := by
  induction h with
  | refl => exact le_rfl
  | tail _ hcut ih => exact hcut.length_lt.le.trans ih

theorem eq_of_reaches (h : Relation.ReflTransGen Cuts a b) (ha : Cuts a c) (hb : Cuts b c) :
    a = b := by
  obtain rfl | ⟨next, hnext, hrest⟩ := h.cases_head
  · rfl
  · rw [rightUnique hnext ha] at hrest
    exact absurd hb.length_lt (length_le hrest).not_gt

/-- Pieces of one text that end at the same place start at the same place. -/
theorem eq_of_cuts (ha : Relation.ReflTransGen Cuts cs a) (hb : Relation.ReflTransGen Cuts cs b)
    (hac : Cuts a c) (hbc : Cuts b c) : a = b := by
  obtain h | h := Relation.ReflTransGen.total_of_right_unique rightUnique ha hb
  · exact eq_of_reaches h hac hbc
  · exact (eq_of_reaches h hbc hac).symm

end Lexeme.Cuts

theorem Lexeme.NoLonger.cuts {kind : Option Terminal} {piece rest : List Char}
    (h : NoLonger piece.length (piece ++ rest)) (hpiece : piece ∈ language kind) :
    Cuts (piece ++ rest) rest := by
  obtain ⟨found, n, hfirst, hle⟩ := exists_first?_of_front hpiece (List.prefix_append piece rest)
  obtain ⟨-, hfound, hn, -⟩ := first?_eq_some_iff.1 hfirst
  have hge := h found _ hfound (List.take_prefix n _)
  rw [List.length_take_of_le hn] at hge
  obtain rfl := hle.antisymm hge
  exact ⟨found, _, hfirst, List.drop_left.symm⟩

theorem Lexeme.NoLonger.of_comment {text : List Char} (h : text ∈ comment) (rest : List Char) :
    NoLonger text.length (text ++ '\n' :: rest) := by
  intro kind piece hpiece hfront
  by_contra hlength
  have hend : text ++ ['\n'] <+: text ++ '\n' :: rest := by simp
  have hover : text ++ ['\n'] <+: piece :=
    List.prefix_of_prefix_length_le hend hfront (by simp; omega)
  obtain ⟨more, -, rfl⟩ := mem_comment.1 h
  obtain rfl | rfl := eq_lineEnd_of_mem hpiece (hover.subset (by simp)) <;> simp at hover

namespace Lexed

variable {engine : Engine} {source piece rest : List Char} {tokens : List Token} {mark : Mark}

theorem reaches (h : Lexed engine source tokens mark rest) :
    Relation.ReflTransGen Cuts source rest := by
  induction h with
  | start => exact .refl
  | skip _ hpiece hlongest ih => exact ih.tail (hlongest.cuts hpiece)
  | @token _ _ _ _ kind _ hpiece hlongest _ ih =>
    have hlexeme : _ ∈ language (some kind) := hpiece
    exact ih.tail (hlongest.cuts hlexeme)

theorem textFrom_eq (h : Lexed engine source tokens mark rest) : mark.textFrom source = rest := by
  obtain ⟨front, rfl, rfl⟩ := h.exists_front
  exact Mark.textFrom_after front rest

theorem textFrom_after (h : Lexed engine source tokens mark (piece ++ rest)) :
    (mark.after piece).textFrom source = rest := by
  obtain ⟨front, rfl, rfl⟩ := h.exists_front
  rw [← Mark.after_append, ← List.append_assoc, Mark.textFrom_after]

end Lexed

namespace EndsComment

variable {engine : Engine} {source piece : List Char} {mark : Mark}

/-- A newline stands at the end of a comment. -/
theorem exists_textFrom (h : EndsComment engine source mark) :
    ∃ more, mark.textFrom source = '\n' :: more := by
  obtain ⟨_, start, text, more, hcomment, -, rfl⟩ := h
  exact ⟨more, hcomment.textFrom_after⟩

theorem not_start : ¬ EndsComment engine source {} := by
  rintro ⟨tokens, start, text, rest, h, htext, hmark⟩
  have hrest := h.textFrom_after
  rw [← hmark, show ({} : Mark).textFrom source = source from rfl] at hrest
  obtain ⟨front, hsource, -⟩ := h.exists_front
  obtain ⟨more, -, rfl⟩ := mem_comment.1 htext
  have hlength := congrArg List.length (hrest.symm.trans hsource)
  simp at hlength
  omega

theorem not_of_front {kind : Option Terminal} (hpiece : piece ∈ language kind)
    (hline : '\n' ∉ piece) (hfront : piece <+: mark.textFrom source) :
    ¬ EndsComment engine source mark := by
  intro h
  obtain ⟨more, hmore⟩ := h.exists_textFrom
  cases piece with
  | nil =>
    obtain ⟨found, n, hfirst, -⟩ := exists_first?_of_front hpiece List.prefix_rfl
    cases hfirst
  | cons c piece =>
    rw [hmore, List.cons_prefix_cons] at hfront
    exact hline (by simp [hfront.1])

end EndsComment

namespace Lexed

variable {engine : Engine} {source piece rest : List Char} {tokens : List Token} {mark : Mark}

theorem endsComment_after_iff {kind : Option Terminal}
    (h : Lexed engine source tokens mark (piece ++ rest)) (hpiece : piece ∈ language kind)
    (hlongest : NoLonger piece.length (piece ++ rest)) :
    EndsComment engine source (mark.after piece) ↔ piece ∈ comment ∧ rest.head? = some '\n' := by
  constructor
  · rintro ⟨_, start, text, more, hcomment, htext, hmark⟩
    have hrest : rest = '\n' :: more := by
      rw [← h.textFrom_after, hmark, hcomment.textFrom_after]
    subst hrest
    have hlexeme : text ∈ language none := .inr htext
    have hsame := Cuts.eq_of_cuts h.reaches hcomment.reaches (hlongest.cuts hpiece)
      ((NoLonger.of_comment htext more).cuts hlexeme)
    rw [List.append_cancel_right hsame]
    exact ⟨htext, rfl⟩
  · rintro ⟨hcomment, hhead⟩
    obtain ⟨more, rfl⟩ := List.head?_eq_some_iff.1 hhead
    exact ⟨tokens, mark, piece, more, h, hcomment, rfl⟩

end Lexed

/-! ## Tokens -/

open Classical in
/-- Where a character of a text stands when all newlines have returns: where it was, or one column
further right if it is a newline whose return went to a comment. -/
noncomputable def Mark.inCrlf (engine : Engine) (source : List Char) (mark : Mark) : Mark :=
  if EndsComment engine source mark then ⟨mark.line, mark.column + 1⟩ else mark

open Classical in
/-- A token of a text when all newlines have returns. -/
noncomputable def Token.inCrlf (engine : Engine) (source : List Char) (token : Token) : Token where
  kind := token.kind
  text := if EndsComment engine source token.mark then token.text else crlf token.text
  mark := token.mark.inCrlf engine source

namespace Mark

variable {engine : Engine} {source : List Char} {mark : Mark}

theorem inCrlf_of_endsComment (h : EndsComment engine source mark) :
    mark.inCrlf engine source = ⟨mark.line, mark.column + 1⟩ := if_pos h

theorem inCrlf_of_not (h : ¬ EndsComment engine source mark) :
    mark.inCrlf engine source = mark := if_neg h

end Mark

theorem Lexeme.newline_not_mem_skipped {piece : List Char} (h : piece ∈ language none) :
    '\n' ∉ piece := by
  obtain h | h := h
  · exact not_mem_of_class h rfl rfl
  · obtain ⟨more, hmore, rfl⟩ := mem_comment.1 h
    simp [hmore]

namespace Lexed

variable {engine : Engine} {source piece rest : List Char} {tokens : List Token} {mark : Mark}

/-- A text with returns is read as far as the text itself.  Behind a comment the return of the
newline has been read already. -/
def ReadsInCrlf (engine : Engine) (source : List Char) (tokens : List Token) (mark : Mark)
    (rest : List Char) : Prop :=
  ∃ left, Lexed engine (crlfChars source) (tokens.map (Token.inCrlf engine source))
      (mark.inCrlf engine source) left ∧
    (EndsComment engine source mark → '\r' :: left = crlfChars rest) ∧
    (¬ EndsComment engine source mark → left = crlfChars rest)

namespace ReadsInCrlf

theorem of_not (h : ReadsInCrlf engine source tokens mark rest)
    (hnot : ¬ EndsComment engine source mark) :
    Lexed engine (crlfChars source) (tokens.map (Token.inCrlf engine source)) mark
      (crlfChars rest) := by
  obtain ⟨left, hlexed, -, hleft⟩ := h
  rwa [hleft hnot, Mark.inCrlf_of_not hnot] at hlexed

theorem intro_of_not (hnot : ¬ EndsComment engine source mark)
    (h : Lexed engine (crlfChars source) (tokens.map (Token.inCrlf engine source)) mark
      (crlfChars rest)) : ReadsInCrlf engine source tokens mark rest := by
  refine ⟨crlfChars rest, ?_, fun hends => absurd hends hnot, fun _ => rfl⟩
  rwa [Mark.inCrlf_of_not hnot]

/-- What is skipped is skipped with returns too, and a comment with the return behind it. -/
theorem skip (h : ReadsInCrlf engine source tokens mark (piece ++ rest))
    (before : Lexed engine source tokens mark (piece ++ rest)) (hpiece : piece ∈ language none)
    (hlongest : NoLonger piece.length (piece ++ rest)) :
    ReadsInCrlf engine source tokens (mark.after piece) rest := by
  have hline := newline_not_mem_skipped hpiece
  have hnot : ¬ EndsComment engine source mark :=
    EndsComment.not_of_front hpiece hline (before.textFrom_eq ▸ List.prefix_append _ _)
  have hiff := before.endsComment_after_iff hpiece hlongest
  have hlexed := h.of_not hnot
  rw [crlfChars_append, crlfChars_of_not_mem hline] at hlexed
  by_cases hends : EndsComment engine source (mark.after piece)
  · obtain ⟨hcomment, hhead⟩ := hiff.1 hends
    obtain ⟨more, rfl⟩ := List.head?_eq_some_iff.1 hhead
    have hreturn : piece ++ ['\r'] ∈ language none := by
      obtain ⟨text, htext, rfl⟩ := mem_comment.1 hcomment
      exact .inr (mem_comment.2 ⟨text ++ ['\r'], by simp [htext], rfl⟩)
    rw [crlfChars_newline, List.append_cons] at hlexed
    have hnext := hlexed.skip hreturn (by simpa using hlongest.with_return hcomment)
    rw [Mark.after_append] at hnext
    refine ⟨'\n' :: crlfChars more, ?_, fun _ => rfl, fun hno => absurd hends hno⟩
    rwa [Mark.inCrlf_of_endsComment hends]
  · refine intro_of_not hends (hlexed.skip hpiece (hlongest.before_returns hline ?_))
    exact fun hcomment hhead => hends (hiff.2 ⟨hcomment, hhead⟩)

/-- A newline is a separator with its return, or alone if a comment took the return. -/
theorem newline (h : ReadsInCrlf engine source tokens mark ('\n' :: rest))
    (hends : ¬ EndsComment engine source (mark.after ['\n'])) :
    ReadsInCrlf engine source (tokens ++ [⟨.separator, .ofList ['\n'], mark⟩])
      (mark.after ['\n']) rest := by
  refine intro_of_not hends ?_
  rw [List.map_append, List.map_singleton, Token.inCrlf]
  by_cases hbehind : EndsComment engine source mark
  · obtain ⟨left, hlexed, hleft, -⟩ := h
    obtain rfl : left = ['\n'] ++ crlfChars rest := (List.cons.inj (hleft hbehind)).2
    rw [Mark.inCrlf_of_endsComment hbehind] at hlexed ⊢
    rw [if_pos hbehind]
    exact hlexed.lineEnd (.inl rfl)
  · have hlexed : Lexed engine (crlfChars source) (tokens.map (Token.inCrlf engine source)) mark
      (['\r', '\n'] ++ crlfChars rest) := h.of_not hbehind
    rw [if_neg hbehind, Mark.inCrlf_of_not hbehind, crlf, String.toList_ofList]
    exact hlexed.lineEnd (.inr rfl)

/-- A token other than the end of a line is read as it is. -/
theorem token {kind : Terminal} (h : ReadsInCrlf engine source tokens mark (piece ++ rest))
    (before : Lexed engine source tokens mark (piece ++ rest)) (hpiece : piece ∈ kind.language)
    (hlongest : NoLonger piece.length (piece ++ rest))
    (hprint : kind = .print ↔ piece = "print".toList ∧ engine.ExpectsKeyword tokens)
    (hline : '\n' ∉ piece) (hcomment : piece ∉ comment)
    (hends : ¬ EndsComment engine source (mark.after piece)) :
    ReadsInCrlf engine source (tokens ++ [⟨kind, .ofList piece, mark⟩]) (mark.after piece)
      rest := by
  have hlexeme : piece ∈ language (some kind) := hpiece
  have hnot : ¬ EndsComment engine source mark :=
    EndsComment.not_of_front hlexeme hline (before.textFrom_eq ▸ List.prefix_append _ _)
  have hlexed := h.of_not hnot
  rw [crlfChars_append, crlfChars_of_not_mem hline] at hlexed
  refine intro_of_not hends ?_
  rw [List.map_append, List.map_singleton, Token.inCrlf, if_neg hnot, Mark.inCrlf_of_not hnot, crlf,
    String.toList_ofList, crlfChars_of_not_mem hline]
  refine hlexed.token hpiece (hlongest.before_returns hline fun hc => absurd hc hcomment) ?_
  have hkind : ∀ token, (Token.inCrlf engine source token).kind = .separator ↔
      token.kind = .separator := fun _ => Iff.rfl
  rw [hprint, Engine.expectsKeyword_map hkind]

end ReadsInCrlf

/-- A text with returns is read token by token as the text itself. -/
theorem inCrlf (hno : '\r' ∉ source) (h : Lexed engine source tokens mark rest) :
    ReadsInCrlf engine source tokens mark rest := by
  induction h with
  | start => exact .intro_of_not EndsComment.not_start .start
  | skip before hpiece hlongest ih => exact ih.skip before hpiece hlongest
  | @token tokens mark piece rest kind before hpiece hlongest hprint ih =>
    have hlexeme : piece ∈ language (some kind) := hpiece
    have hcomment : piece ∉ comment := by
      have hkeyword := hprint
      rw [Scan.expectsKeyword_iff] at hkeyword
      obtain ⟨base, hfirst, -⟩ := Scan.exists_base hpiece hlongest hkeyword
      intro hcomment
      rw [first?_comment hcomment rest] at hfirst
      cases hfirst
    have hends : ¬ EndsComment engine source (mark.after piece) := fun hends =>
      hcomment ((before.endsComment_after_iff hlexeme hlongest).1 hends).1
    by_cases hn : '\n' ∈ piece
    · obtain rfl : piece = ['\n'] := by
        refine (eq_lineEnd_of_mem hlexeme hn).resolve_right ?_
        rintro rfl
        obtain ⟨front, hsource, -⟩ := before.exists_front
        exact hno (by simp [hsource])
      obtain rfl := eq_separator_of_mem hpiece hn
      exact ih.newline hends
    · exact ih.token before hpiece hlongest hprint hn hcomment hends

/-- Only separators change. -/
theorem inCrlf_of_mem (h : Lexed engine source tokens mark rest) {token : Token}
    (ht : token ∈ tokens) (hkind : token.kind ≠ .separator) :
    token.inCrlf engine source = token := by
  have htext : token.text.toList ∈ token.kind.language := by
    obtain ⟨before, after, rfl⟩ := List.append_of_mem ht
    exact h.token_text.1
  have hline : '\n' ∉ token.text.toList := fun hn => hkind (eq_separator_of_mem htext hn)
  have hlexeme : token.text.toList ∈ language (some token.kind) := htext
  have hnot : ¬ EndsComment engine source token.mark :=
    EndsComment.not_of_front hlexeme hline (h.text_prefix ht)
  rw [Token.inCrlf, if_neg hnot, Mark.inCrlf_of_not hnot, crlf, crlfChars_of_not_mem hline,
    String.ofList_toList]

end Lexed

/-! ## Derivations -/

/-- What can be derived depends on the kinds of the tokens only. -/
theorem Derivation.exists_of_kinds {p : Pattern} (d : Derivation p) {ts : List Token}
    (h : ts.map Token.kind = d.tokens.map Token.kind) : ∃ e : Derivation p, e.tokens = ts := by
  induction d generalizing ts with
  | terminal token hk =>
    obtain ⟨t, rest, rfl, ht, hrest⟩ := List.map_eq_cons_iff.1 h
    obtain rfl := List.map_eq_nil_iff.1 hrest
    exact ⟨.terminal t (ht.trans hk), rfl⟩
  | rule production hp inner ih =>
    obtain ⟨e, he⟩ := ih h
    exact ⟨.rule production hp e, he⟩
  | seq first second ihf ihs =>
    rw [tokens, List.map_append] at h
    obtain ⟨us, vs, rfl, hu, hv⟩ := List.map_eq_append_iff.1 h
    obtain ⟨e, rfl⟩ := ihf hu
    obtain ⟨f, rfl⟩ := ihs hv
    exact ⟨.seq e f, rfl⟩
  | left d ih =>
    obtain ⟨e, he⟩ := ih h
    exact ⟨.left e, he⟩
  | right d ih =>
    obtain ⟨e, he⟩ := ih h
    exact ⟨.right e, he⟩
  | absent => exact ⟨.absent, (List.map_eq_nil_iff.1 h).symm⟩
  | present d ih =>
    obtain ⟨e, he⟩ := ih h
    exact ⟨.present e, he⟩
  | stop => exact ⟨.stop, (List.map_eq_nil_iff.1 h).symm⟩
  | more first rest ihf ihr =>
    rw [tokens, List.map_append] at h
    obtain ⟨us, vs, rfl, hu, hv⟩ := List.map_eq_append_iff.1 h
    obtain ⟨e, rfl⟩ := ihf hu
    obtain ⟨f, rfl⟩ := ihr hv
    exact ⟨.more e f, rfl⟩

theorem Derivable.of_kinds {ts us : List Token} (h : Derivable ts)
    (hkinds : us.map Token.kind = ts.map Token.kind) : Derivable us := by
  obtain ⟨d, rfl⟩ := h
  exact d.exists_of_kinds hkinds

theorem Viable.of_kinds {ts us : List Token} (h : Viable ts)
    (hkinds : us.map Token.kind = ts.map Token.kind) : Viable us := by
  obtain ⟨d, more, hmore⟩ := h
  have hall : (us ++ more).map Token.kind = d.tokens.map Token.kind := by
    rw [← hmore, List.map_append, List.map_append, hkinds]
  obtain ⟨e, he⟩ := d.exists_of_kinds hall
  exact ⟨e, more, he.symm⟩

/-- A program may end behind a separator. -/
theorem Viable.derivable {tokens : List Token} {last : Token} (h : Viable (tokens ++ [last]))
    (hlast : last.kind = .separator) : Derivable (tokens ++ [last]) := by
  obtain ⟨reading, hrun⟩ := Reading.viable_iff.1 h
  obtain ⟨before, -, hstep⟩ := Reading.exists_of_run_snoc hrun
  have hfresh : reading.phase = .fresh := by
    rw [Reading.step?, hlast] at hstep
    obtain ⟨ended, hended, rfl⟩ := Option.map_eq_some_iff.1 hstep
    rw [Reading.endStatement?] at hended
    split at hended
    · cases hended
      assumption
    · obtain ⟨statement, -, rfl⟩ := Option.map_eq_some_iff.1 hended
      rfl
  have hend : reading.endStatement? = some reading := by rw [Reading.endStatement?, hfresh]
  have hfinish := congrArg (Option.map fun ended : Reading => Node.rule Rule.program.label
    ended.statements.reverse (ended.start.map Mark.position)) hend
  exact Reading.derivable_iff.2 ⟨reading, _, hrun, hfinish⟩

/-- Parts with the same nodes that start at a token and at its image. -/
def Part.Follows (f : Token → Token) (a b : Part) : Prop :=
  b.nodes = a.nodes ∧ ∃ start : Option Token, a.start = start.map (fun t => t.mark.position) ∧
    b.start = start.map fun t => (f t).mark.position

namespace Part.Follows

variable {f : Token → Token} {a b c d : Part}

theorem append (hab : Follows f a b) (hcd : Follows f c d) : Follows f (a ++ c) (b ++ d) := by
  obtain ⟨hnodes, start, ha, hb⟩ := hab
  obtain ⟨hothers, other, hc, hd⟩ := hcd
  refine ⟨?_, start.or other, ?_, ?_⟩
  · rw [nodes_append, nodes_append, hnodes, hothers]
  · rw [start_append, ha, hc, Option.map_or]
  · rw [start_append, hb, hd, Option.map_or]

theorem empty : Follows f {} {} := ⟨rfl, none, rfl, rfl⟩

theorem separator {token : Token} (hk : token.kind = .separator)
    (hf : (f token).kind = token.kind) : Follows f (ofToken token) (ofToken (f token)) := by
  refine ⟨?_, some token, rfl, rfl⟩
  simp [ofToken, hf, hk, Terminal.isKept]

end Part.Follows

namespace Derivation

variable {f : Token → Token}

theorem follows_stmt (d : Derivation (.rule .stmt)) (hf : ∀ t ∈ d.tokens, f t = t) :
    Part.Follows f d.part d.part := by
  obtain ⟨elements, h⟩ := d.exists_elements rfl
  refine ⟨rfl, ?_⟩
  rw [← h.start_eq]
  cases elements with
  | nil => exact ⟨none, rfl, rfl⟩
  | cons first rest =>
    obtain ⟨token, htoken, hstart⟩ := (h.marked first List.mem_cons_self).start
    have hmem : token ∈ d.tokens := h.tokens_eq ▸ Element.tokens_subset List.mem_cons_self htoken
    refine ⟨some token, hstart, ?_⟩
    rw [Option.map_some, hf token hmem]
    exact hstart

/-- A statement has no separator, so that it stays as it is. -/
theorem follows_optional (d : Derivation (.optional (.rule .stmt)))
    (hf : ∀ t ∈ d.tokens, t.kind ≠ .separator → f t = t) :
    d.tokens.map f = d.tokens ∧ Part.Follows f d.part d.part := by
  have hsame : ∀ t ∈ d.tokens, f t = t := fun t ht => hf t ht (d.ne_separator_of_mem_optional t ht)
  refine ⟨(List.map_congr_left hsame).trans (List.map_id' _), ?_⟩
  cases d with
  | absent => exact .empty
  | present d => exact d.follows_stmt hsame

theorem exists_lines (hkind : ∀ t, (f t).kind = t.kind) : (lines : Derivation Pattern.lines) →
    (∀ t ∈ lines.tokens, t.kind ≠ .separator → f t = t) →
    ∃ others : Derivation Pattern.lines, others.tokens = lines.tokens.map f ∧
      Part.Follows f lines.part others.part
  | .stop, _ => ⟨.stop, rfl, .empty⟩
  | .more (.seq statement (.terminal token hk)) rest, hf => by
    obtain ⟨hstatement, hfollows⟩ := statement.follows_optional (f := f) fun t ht =>
      hf t (by simp [tokens, ht])
    obtain ⟨others, hothers, hrest⟩ := exists_lines hkind rest fun t ht =>
      hf t (by simp [tokens, ht])
    refine ⟨.more (.seq statement (.terminal (f token) ((hkind token).trans hk))) others, ?_,
      (hfollows.append (.separator hk (hkind token))).append hrest⟩
    simp [tokens, hstatement, hothers]

/-- A program whose separators are replaced has the same statements, and it starts at the same token
or at the one in its place. -/
theorem exists_program (d : Derivation (.rule .program)) (hkind : ∀ t, (f t).kind = t.kind)
    (hf : ∀ t ∈ d.tokens, t.kind ≠ .separator → f t = t) {tree : Node}
    (hd : d.part.nodes = [tree]) :
    ∃ (e : Derivation (.rule .program)) (statements : List Node) (start : Option Token),
      e.tokens = d.tokens.map f ∧
      tree = .rule Rule.program.label statements (start.map fun t => t.mark.position) ∧
      e.part.nodes =
        [.rule Rule.program.label statements (start.map fun t => (f t).mark.position)] := by
  obtain ⟨lines, last, rfl⟩ := program_cases d
  obtain ⟨others, hothers, hlines⟩ := exists_lines hkind lines fun t ht => hf t (by simp [ht])
  obtain ⟨hlast, hfollows⟩ := last.follows_optional fun t ht => hf t (by simp [ht])
  obtain ⟨hnodes, start, hstart, hmoved⟩ := hlines.append hfollows
  refine ⟨program others last, (lines.part ++ last.part).nodes, start, ?_, ?_, ?_⟩
  · simp [hothers, hlast]
  · rw [← hstart]
    exact (List.cons.inj hd).1.symm
  · rw [← hmoved, ← hnodes]
    rfl

end Derivation

/-! ## Programs -/

section

variable {engine : Engine} {source : String}

theorem map_kind_inCrlf (engine : Engine) (source : List Char) (tokens : List Token) :
    (tokens.map (Token.inCrlf engine source)).map Token.kind = tokens.map Token.kind := by
  rw [List.map_map]
  rfl

theorem viable_inCrlf (engine : Engine) (source : List Char) {tokens : List Token} :
    Viable (tokens.map (Token.inCrlf engine source)) ↔ Viable tokens :=
  ⟨fun h => h.of_kinds (map_kind_inCrlf ..).symm, fun h => h.of_kinds (map_kind_inCrlf ..)⟩

theorem Lexed.crlf_end {tokens : List Token} {mark : Mark} (hno : '\r' ∉ source.toList)
    (h : Lexed engine source.toList tokens mark []) :
    ∃ reached, Lexed engine (crlf source).toList
      (tokens.map (Token.inCrlf engine source.toList)) reached [] := by
  obtain ⟨left, hlexed, hends, hnot⟩ := h.inCrlf hno
  by_cases hcomment : EndsComment engine source.toList mark
  · cases hends hcomment
  · obtain rfl : left = [] := hnot hcomment
    rw [toList_crlf]
    exact ⟨_, hlexed⟩

theorem parse_crlf_of_ok (hno : '\r' ∉ source.toList) {tree : Node}
    (h : parse engine source = .ok tree) :
    ∃ (statements : List Node) (start : Option Mark),
      tree = .rule Rule.program.label statements (start.map Mark.position) ∧
      parse engine (crlf source) = .ok (.rule Rule.program.label statements
        (start.map fun mark => (mark.inCrlf engine source.toList).position)) := by
  obtain ⟨tokens, mark, hlexed, d, rfl, hd⟩ := parse_eq_ok_iff.1 h
  obtain ⟨reached, hreturns⟩ := hlexed.crlf_end hno
  obtain ⟨e, statements, start, htokens, htree, he⟩ :=
    d.exists_program (f := Token.inCrlf engine source.toList) (fun _ => rfl)
      (fun t ht => hlexed.inCrlf_of_mem ht) hd
  refine ⟨statements, start.map Token.mark, ?_,
    parse_eq_ok_iff.2 ⟨_, reached, hreturns, e, htokens, ?_⟩⟩
  · rw [htree, Option.map_map]
    rfl
  · rw [he, Option.map_map]
    rfl

theorem parse_crlf_of_unexpectedToken (hno : '\r' ∉ source.toList) {token : Token}
    (h : parse engine source = .error (.unexpectedToken token)) :
    parse engine (crlf source) =
      .error (.unexpectedToken (token.inCrlf engine source.toList)) := by
  obtain ⟨before, mark, rest, hlexed, hbefore, htoken⟩ := parse_eq_unexpectedToken_iff.1 h
  obtain ⟨left, hreturns, -⟩ := hlexed.inCrlf hno
  rw [List.map_append, ← toList_crlf] at hreturns
  rw [← viable_inCrlf engine source.toList, List.map_append] at htoken
  exact parse_eq_unexpectedToken_iff.2 ⟨_, _, _, hreturns, (viable_inCrlf ..).2 hbefore, htoken⟩

theorem parse_crlf_of_unexpectedCharacter (hno : '\r' ∉ source.toList) {c : Char} {mark : Mark}
    (h : parse engine source = .error (.unexpectedCharacter c mark)) :
    parse engine (crlf source) = .error (.unexpectedCharacter c mark) := by
  obtain ⟨tokens, rest, hlexed, hviable, hstuck⟩ := parse_eq_unexpectedCharacter_iff.1 h
  have hnewline : c ≠ '\n' := by
    rintro rfl
    exact hstuck (some .separator) ['\n'] (Terminal.mem_separator.2 (.inr (.inl rfl))) (by simp)
  have hnot : ¬ EndsComment engine source.toList mark := by
    intro hends
    obtain ⟨more, hmore⟩ := hends.exists_textFrom
    rw [hlexed.textFrom_eq] at hmore
    cases hmore
    exact hnewline rfl
  have hreturns := (hlexed.inCrlf hno).of_not hnot
  have hrest : crlfChars (c :: rest) = c :: crlfChars rest := by simp [crlfChars, hnewline]
  rw [← toList_crlf, hrest] at hreturns
  refine parse_eq_unexpectedCharacter_iff.2 ⟨_, _, hreturns, (viable_inCrlf ..).2 hviable, ?_⟩
  intro kind piece hpiece hfront
  rw [← hrest] at hfront
  obtain hsame | ⟨-, more, hmore⟩ | ⟨front, more, -, hcomment, hmore⟩ :=
    prefix_crlfChars_cases hpiece hfront
  · exact hstuck kind piece hpiece hsame
  · cases hmore
    exact hnewline rfl
  · exact hstuck none front (.inr hcomment) (hmore ▸ List.prefix_append _ _)

theorem parse_crlf_of_unexpectedEnd (hno : '\r' ∉ source.toList) {place : Option Mark}
    (h : parse engine source = .error (.unexpectedEnd place)) :
    parse engine (crlf source) = .error (.unexpectedEnd place) := by
  obtain ⟨tokens, last, mark, hlexed, hviable, hderivable, hplace⟩ :=
    parse_eq_unexpectedEnd_iff.1 h
  obtain ⟨reached, hreturns⟩ := hlexed.crlf_end hno
  have hlast : last.inCrlf engine source.toList = last :=
    hlexed.inCrlf_of_mem (by simp) fun hk => hderivable (hviable.derivable hk)
  have hkinds := map_kind_inCrlf engine source.toList (tokens ++ [last])
  rw [List.map_append, List.map_singleton, hlast] at hreturns hkinds
  exact parse_eq_unexpectedEnd_iff.2 ⟨_, last, reached, hreturns, hviable.of_kinds hkinds,
    fun hd => hderivable (hd.of_kinds hkinds.symm), hplace⟩

end

/-- A program does the same with returns: it has the same statements, and only its own position may
be one column further right, if that is the position of a newline right behind a comment.  Any other
text is rejected with the same fault, where only a newline that is unexpected may be one column
further right. -/
theorem parse_crlf (engine : Engine) {source : String} (hno : '\r' ∉ source.toList) :
    (∃ (statements : List Node) (start : Option Mark),
      parse engine source =
        .ok (.rule Rule.program.label statements (start.map Mark.position)) ∧
      parse engine (crlf source) = .ok (.rule Rule.program.label statements
        (start.map fun mark => (mark.inCrlf engine source.toList).position)) ∧
      ∀ env, interpret engine.name (crlf source) env = interpret engine.name source env) ∨
    (∃ token, parse engine source = .error (.unexpectedToken token) ∧
      parse engine (crlf source) =
        .error (.unexpectedToken (token.inCrlf engine source.toList))) ∨
    ∃ fault, (∀ token, fault ≠ .unexpectedToken token) ∧ parse engine source = .error fault ∧
      parse engine (crlf source) = .error fault := by
  cases hparse : parse engine source with
  | ok tree =>
    obtain ⟨statements, start, rfl, hreturns⟩ := parse_crlf_of_ok hno hparse
    refine .inl ⟨statements, start, rfl, hreturns, fun env => ?_⟩
    rw [Command.interpret_of_ok hparse, Command.interpret_of_ok hreturns, evaluateIn, evaluateIn,
      (isProgram_of_parse hparse).evaluate_eq, (isProgram_of_parse hreturns).evaluate_eq]
    rfl
  | error fault =>
    refine .inr ?_
    cases fault with
    | unexpectedToken token =>
      exact .inl ⟨token, rfl, parse_crlf_of_unexpectedToken hno hparse⟩
    | unexpectedCharacter c mark =>
      exact .inr ⟨_, by simp, rfl, parse_crlf_of_unexpectedCharacter hno hparse⟩
    | unexpectedEnd place =>
      exact .inr ⟨_, by simp, rfl, parse_crlf_of_unexpectedEnd hno hparse⟩

/-- A number below a comment, with the position of the program. -/
def belowComment (position : Position) : Node :=
  .rule Rule.program.label [.token Terminal.number.label "1" (some ⟨2, some 1⟩)] (some position)

/-- The newline behind a comment moves, and with it a program that starts there. -/
theorem not_forall_parse_crlf :
    ¬ ∀ (engine : Engine) (source : String), '\r' ∉ source.toList →
      ∀ tree, parse engine source = .ok tree → parse engine (crlf source) = .ok tree := by
  intro h
  have hparse : parse .lalr "# one\n1" = .ok (belowComment ⟨1, some 6⟩) := by cbv
  have hreturns : parse .lalr (crlf "# one\n1") = .ok (belowComment ⟨1, some 7⟩) := by cbv
  have hsame := h .lalr "# one\n1" (by decide) _ hparse
  rw [hreturns] at hsame
  simp [belowComment] at hsame

theorem parse_crlf_belowComment :
    '\r' ∉ "# one\n1".toList ∧
      parse .lalr "# one\n1" = .ok (belowComment ⟨1, some 6⟩) ∧
      parse .lalr (crlf "# one\n1") = .ok (belowComment ⟨1, some 7⟩) ∧
      ∀ env, interpret Engine.lalr.name (crlf "# one\n1") env =
        interpret Engine.lalr.name "# one\n1" env := by
  have hno : '\r' ∉ "# one\n1".toList := by decide
  have hparse : parse .lalr "# one\n1" = .ok (belowComment ⟨1, some 6⟩) := by cbv
  have hends : EndsComment .lalr "# one\n1".toList ⟨1, 6⟩ :=
    ⟨[], {}, "# one".toList, ['1'], .start, mem_comment.2 ⟨" one".toList, by decide, rfl⟩, rfl⟩
  refine ⟨hno, hparse, ?_⟩
  obtain ⟨statements, start, htree, hreturns, heval⟩ | ⟨token, hfault, -⟩ | ⟨fault, -, hfault, -⟩ :=
    parse_crlf .lalr hno
  · rw [hparse, belowComment, Except.ok.injEq, Node.rule.injEq] at htree
    obtain ⟨-, rfl, hstart⟩ := htree
    obtain ⟨⟨line, column⟩, rfl, hmark⟩ := Option.map_eq_some_iff.1 hstart.symm
    cases hmark
    rw [Option.map_some, Mark.inCrlf_of_endsComment hends] at hreturns
    exact ⟨hreturns, heval⟩
  · cases hparse.symm.trans hfault
  · cases hparse.symm.trans hfault

end Reckon
