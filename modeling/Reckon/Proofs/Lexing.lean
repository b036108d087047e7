import Reckon.Proofs.Lexicon
import Reckon.Token.Scan

/-!
# Lexing

`Lexed engine source tokens mark rest` says what the tokens of a text are: the longest piece is cut
off the front again and again, and `rest` is still left at `mark`.  Scanning does just that, and it
stops only where no piece starts.
-/

namespace Reckon

open Lexeme

/-- Where an engine takes the word `print` for the keyword: everywhere, or only where a statement
may start. -/
def Engine.ExpectsKeyword (engine : Engine) (before : List Token) : Prop :=
  engine = .earley ∨ before = [] ∨ ∃ last ∈ before.getLast?, last.kind = .separator

theorem Engine.expectsKeyword_map {engine : Engine} {tokens : List Token} {f : Token → Token}
    (hf : ∀ token, (f token).kind = .separator ↔ token.kind = .separator) :
    engine.ExpectsKeyword (tokens.map f) ↔ engine.ExpectsKeyword tokens := by
  simp [ExpectsKeyword, hf]

/-- The tokens read from the front of a text, the place reached and the rest of the text. -/
inductive Lexed (engine : Engine) (source : List Char) : List Token → Mark → List Char → Prop
  | start : Lexed engine source [] {} source
  | skip {tokens : List Token} {mark : Mark} {piece rest : List Char}
      (before : Lexed engine source tokens mark (piece ++ rest))
      (text : piece ∈ language none) (longest : NoLonger piece.length (piece ++ rest)) :
      Lexed engine source tokens (mark.after piece) rest
  | token {tokens : List Token} {mark : Mark} {piece rest : List Char} {kind : Terminal}
      (before : Lexed engine source tokens mark (piece ++ rest))
      (text : piece ∈ kind.language) (longest : NoLonger piece.length (piece ++ rest))
      (keyword : kind = .print ↔ piece = "print".toList ∧ engine.ExpectsKeyword tokens) :
      Lexed engine source (tokens ++ [⟨kind, String.ofList piece, mark⟩]) (mark.after piece) rest

namespace Scan

/-- Whether a statement may start behind some tokens. -/
def atStart (tokens : List Token) : Bool := tokens.getLast?.all fun last => endsStatement last.kind

theorem expectsKeyword_iff {engine : Engine} {tokens : List Token} :
    engine.ExpectsKeyword tokens ↔ engine.readsKeyword (atStart tokens) := by
  cases engine with
  | earley => simp [Engine.ExpectsKeyword, Engine.readsKeyword]
  | lalr =>
    cases tokens using List.reverseRecOn with
    | nil => simp [Engine.ExpectsKeyword, Engine.readsKeyword, atStart]
    | append_singleton tokens last =>
      simp [Engine.ExpectsKeyword, Engine.readsKeyword, atStart, endsStatement]

theorem first?_piece {kind : Option Terminal} {piece rest : List Char} (hprint : kind ≠ some .print)
    (hpiece : piece ∈ language kind) (hlongest : NoLonger piece.length (piece ++ rest)) :
    first? (piece ++ rest) = some (kind, piece.length) :=
  first?_eq_some_iff.2 ⟨hprint, by rwa [List.take_left], by simp, hlongest⟩

/-! ## One piece -/

theorem ofChars_skipped {cs : List Char} {n : Nat} (h : first? cs = some (none, n))
    (engine : Engine) (start : Bool) (mark : Mark) :
    ofChars engine start mark cs = ofChars engine start (mark.after (cs.take n)) (cs.drop n) := by
  rw [ofChars]
  split
  · simp_all
  · rename_i m hm
    rw [h] at hm
    cases hm
    rfl
  · simp_all

theorem ofChars_skip {piece rest : List Char} (hpiece : piece ∈ language none)
    (hlongest : NoLonger piece.length (piece ++ rest)) (engine : Engine) (start : Bool)
    (mark : Mark) :
    ofChars engine start mark (piece ++ rest) = ofChars engine start (mark.after piece) rest := by
  rw [ofChars_skipped (first?_piece (by simp) hpiece hlongest), List.take_left, List.drop_left]

/-- The kind that scanning gives to a piece before it looks for the keyword. -/
theorem exists_base {engine : Engine} {start : Bool} {piece rest : List Char} {kind : Terminal}
    (hpiece : piece ∈ kind.language) (hlongest : NoLonger piece.length (piece ++ rest))
    (hprint : kind = .print ↔ piece = "print".toList ∧ engine.readsKeyword start) :
    ∃ base, first? (piece ++ rest) = some (some base, piece.length) ∧
      terminal engine start base (String.ofList piece) = kind ∧
      endsStatement base = endsStatement kind := by
  by_cases hkind : kind = .print
  · subst hkind
    obtain ⟨rfl, hreads⟩ := hprint.1 rfl
    refine ⟨.name, first?_piece (by simp) Lexicon.print_mem_name hlongest, ?_, rfl⟩
    simp [terminal, hreads]
  · refine ⟨kind, first?_piece (by simpa using hkind) hpiece hlongest, ?_, rfl⟩
    rw [terminal, if_neg]
    rintro ⟨rfl, htext, hreads⟩
    exact hkind (hprint.2 ⟨by rw [← htext, String.toList_ofList], hreads⟩)

theorem ofChars_token {engine : Engine} {start : Bool} {piece rest : List Char} {kind : Terminal}
    (hpiece : piece ∈ kind.language) (hlongest : NoLonger piece.length (piece ++ rest))
    (hprint : kind = .print ↔ piece = "print".toList ∧ engine.readsKeyword start) (mark : Mark) :
    ofChars engine start mark (piece ++ rest) =
      ⟨⟨kind, String.ofList piece, mark⟩ ::
          (ofChars engine (endsStatement kind) (mark.after piece) rest).tokens,
        (ofChars engine (endsStatement kind) (mark.after piece) rest).stuck⟩ := by
  obtain ⟨base, hfirst, hterminal, hends⟩ := exists_base hpiece hlongest hprint
  rw [ofChars]
  split
  · simp_all
  · simp_all
  · rename_i found n h
    rw [hfirst] at h
    cases h
    simp only [List.take_left, List.drop_left, hterminal, hends]

theorem atStart_append (tokens : List Token) (token : Token) :
    atStart (tokens ++ [token]) = endsStatement token.kind := by
  simp [atStart]

end Scan

namespace Lexed

variable {engine : Engine} {source rest : List Char} {tokens more : List Token} {mark : Mark}

/-! ## Whole texts -/

/-- Scanning gives the tokens read so far, and then goes on with the rest. -/
theorem ofChars_eq (h : Lexed engine source tokens mark rest) :
    Scan.ofChars engine true {} source =
      ⟨tokens ++ (Scan.ofChars engine (Scan.atStart tokens) mark rest).tokens,
        (Scan.ofChars engine (Scan.atStart tokens) mark rest).stuck⟩ := by
  induction h with
  | start => rfl
  | skip _ hpiece hlongest ih => rw [ih, Scan.ofChars_skip hpiece hlongest]
  | token _ hpiece hlongest hprint ih =>
    rw [Scan.expectsKeyword_iff] at hprint
    rw [ih, Scan.ofChars_token hpiece hlongest hprint, Scan.atStart_append, List.append_assoc]
    rfl

/-- From every place, reading goes on to one where no piece starts. -/
theorem exists_end (h : Lexed engine source tokens mark rest) :
    ∃ all last behind, Lexed engine source all last behind ∧ first? behind = none := by
  induction hn : rest.length using Nat.strong_induction_on generalizing tokens mark rest with
  | _ n ih =>
    cases hfirst : first? rest with
    | none => exact ⟨tokens, mark, rest, h, hfirst⟩
    | some found =>
      obtain ⟨kind, length⟩ := found
      obtain ⟨hprint, hpiece, hlength, hlongest⟩ := first?_eq_some_iff.1 hfirst
      have hshorter := length_drop_lt hfirst
      have htake : (rest.take length).length = length := List.length_take_of_le hlength
      rw [← List.take_append_drop length rest] at h
      have hlongest' : NoLonger (rest.take length).length
          (rest.take length ++ rest.drop length) := by
        rwa [htake, List.take_append_drop]
      cases kind with
      | none => exact ih _ (hn ▸ hshorter) (h.skip hpiece hlongest') rfl
      | some kind =>
        by_cases hkeyword : rest.take length = "print".toList ∧ engine.ExpectsKeyword tokens
        · have hword : rest.take length ∈ Terminal.print.language := hkeyword.1
          exact ih _ (hn ▸ hshorter) (h.token hword hlongest' (iff_of_true rfl hkeyword)) rfl
        · have hkind : kind ≠ .print := by simpa using hprint
          exact ih _ (hn ▸ hshorter) (h.token hpiece hlongest' (iff_of_false hkind hkeyword)) rfl

/-- Where no piece starts, the tokens read are all tokens. -/
theorem ofChars_eq_of_end (h : Lexed engine source tokens mark rest) (hend : first? rest = none) :
    Scan.ofChars engine true {} source = ⟨tokens, rest.head?.map fun c => (c, mark)⟩ := by
  have hrest : ∀ start, Scan.ofChars engine start mark rest =
      ⟨[], rest.head?.map fun c => (c, mark)⟩ := by
    intro start
    rw [Scan.ofChars]
    split
    · rfl
    · simp_all
    · simp_all
  rw [h.ofChars_eq, hrest, List.append_nil]

theorem of_append (h : Lexed engine source (tokens ++ more) mark rest) :
    ∃ earlier behind, Lexed engine source tokens earlier behind := by
  generalize hall : tokens ++ more = all at h
  induction h generalizing more with
  | start =>
    obtain ⟨rfl, -⟩ := List.append_eq_nil_iff.1 hall
    exact ⟨{}, source, .start⟩
  | skip _ _ _ ih => exact ih hall
  | token before hpiece hlongest hprint ih =>
    cases more using List.reverseRecOn with
    | nil =>
      rw [List.append_nil] at hall
      exact ⟨_, _, hall ▸ before.token hpiece hlongest hprint⟩
    | append_singleton more last =>
      rw [← List.append_assoc] at hall
      exact ih (List.append_inj_left' hall rfl)

/-- Each token has a text of its terminal, and it is the keyword where the engine expects it. -/
theorem token_text {before after : List Token} {token : Token}
    (h : Lexed engine source (before ++ token :: after) mark rest) :
    token.text.toList ∈ token.kind.language ∧
      (token.kind = .print ↔ token.text = "print" ∧ engine.ExpectsKeyword before) := by
  rw [List.append_cons] at h
  obtain ⟨mark, rest, h⟩ := h.of_append
  generalize hall : before ++ [token] = all at h
  induction h with
  | start => simp at hall
  | skip _ _ _ ih => exact ih hall
  | token _ hpiece _ hprint _ =>
    obtain ⟨rfl, hlast⟩ := List.append_inj' hall rfl
    cases hlast
    rw [String.toList_ofList]
    refine ⟨hpiece, ?_⟩
    simp only [hprint, ← String.toList_inj, String.toList_ofList]

end Lexed

theorem Lexeme.kind_of_print {kind : Terminal} (h : "print".toList ∈ kind.language) :
    kind = .print ∨ kind = .name := by
  by_cases hprint : kind = .print
  · exact .inl hprint
  · obtain ⟨found, n, hfirst, -, hkind⟩ := reaches_of_mem
      (show "print".toList ∈ language (some kind) from h) (by simpa using hprint) []
    have hword : first? ("print".toList ++ []) = some (some .name, 5) := by decide
    rw [hword] at hfirst
    cases hfirst
    exact .inr (Option.some.inj (hkind rfl)).symm

namespace Scan

variable {engine : Engine} {source : String}

/-- What scanning a text comes to. -/
theorem exists_lexed (engine : Engine) (source : String) :
    ∃ mark rest, Lexed engine source.toList (ofText engine source).tokens mark rest ∧
      first? rest = none ∧ (ofText engine source).stuck = rest.head?.map fun c => (c, mark) := by
  have hstart : Lexed engine source.toList [] {} source.toList := .start
  obtain ⟨tokens, mark, rest, h, hend⟩ := hstart.exists_end
  rw [ofText, h.ofChars_eq_of_end hend]
  exact ⟨mark, rest, h, hend, rfl⟩

end Scan

end Reckon
