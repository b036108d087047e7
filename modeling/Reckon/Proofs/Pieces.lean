import Reckon.Proofs.Parsing

/-!
# The pieces of a source

A source that parses is cut into tokens and skipped pieces without a rest: written one behind the
other they are the source again.  Each piece is the longest that its place allows, a string ends at
its first quote that is not escaped, and the mark of a token counts the lines and the characters in
front of it (`parse_pieces`).
-/

open Computability

namespace Reckon

open Lexeme Lexicon

/-! ## Places -/

/-- The mark behind a text counts the newlines in it, and the characters since the last of them. -/
theorem Mark.after_eq (cs : List Char) :
    ({} : Mark).after cs = ⟨1 + cs.count '\n', 1 + (cs.rtakeWhile (· != '\n')).length⟩ := by
  induction cs using List.reverseRecOn with
  | nil => rfl
  | append_singleton cs c ih =>
    rw [after_append, ih, List.count_append, List.rtakeWhile_concat]
    by_cases hc : c = '\n'
    · subst hc
      rfl
    · have hnext : ∀ mark : Mark, mark.after [c] = ⟨mark.line, mark.column + 1⟩ :=
        fun mark => if_neg hc
      rw [hnext, if_pos (by simpa using hc), List.length_append, List.length_singleton,
        List.count_singleton, if_neg (by simpa using hc)]
      rfl

/-! ## Strings -/

/-- Whether the character behind a text is escaped: the number of backslashes at the end of the
text is odd. -/
def IsEscaped (before : List Char) : Prop := Odd (before.rtakeWhile (· == '\\')).length

theorem not_isEscaped_nil : ¬ IsEscaped [] := by simp [IsEscaped]

theorem isEscaped_concat {before : List Char} {c : Char} :
    IsEscaped (before ++ [c]) ↔ c = '\\' ∧ ¬ IsEscaped before := by
  by_cases hc : c = '\\'
  · have hrun : (before ++ [c]).rtakeWhile (· == '\\') = before.rtakeWhile (· == '\\') ++ [c] :=
      List.rtakeWhile_concat_pos _ _ _ (by simpa using hc)
    rw [IsEscaped, hrun, List.length_append, List.length_singleton, Nat.odd_add_one, IsEscaped]
    simp [hc]
  · have hrun : (before ++ [c]).rtakeWhile (· == '\\') = [] :=
      List.rtakeWhile_concat_neg _ _ _ (by simpa using hc)
    rw [IsEscaped, hrun]
    simp [hc]

/-- No escape goes beyond a unit of a string. -/
theorem not_isEscaped_append_unit {before unit : List Char} (hb : ¬ IsEscaped before)
    (hu : unit ∈ stringUnit) : ¬ IsEscaped (before ++ unit) := by
  obtain ⟨c, hc, rfl⟩ | hescape := hu
  · rw [isEscaped_concat]
    rintro ⟨rfl, -⟩
    cases hc
  · obtain ⟨_, ⟨c, -, rfl⟩, rfl⟩ := mem_word_mul.1 hescape
    have hslash : IsEscaped (before ++ ['\\']) := isEscaped_concat.2 ⟨rfl, hb⟩
    have hsplit : before ++ ("\\".toList ++ [c]) = before ++ ['\\'] ++ [c] :=
      (List.append_assoc _ _ _).symm
    rw [hsplit, isEscaped_concat]
    exact fun h => h.2 hslash

theorem not_isEscaped_append_units {before body : List Char} (hb : ¬ IsEscaped before)
    (h : body ∈ stringUnit∗) : ¬ IsEscaped (before ++ body) := by
  obtain ⟨units, rfl, hunits⟩ := h
  induction units generalizing before with
  | nil => rwa [List.flatten_nil, List.append_nil]
  | cons unit units ih =>
    rw [List.forall_mem_cons] at hunits
    rw [List.flatten_cons, ← List.append_assoc]
    exact ih (not_isEscaped_append_unit hb hunits.1) hunits.2

/-- A quote in a unit of a string is escaped. -/
theorem isEscaped_of_quote_in_unit {before unit front behind : List Char} (hb : ¬ IsEscaped before)
    (hu : unit ∈ stringUnit) (hsplit : unit = front ++ '"' :: behind) :
    IsEscaped (before ++ front) := by
  obtain ⟨c, hc, rfl⟩ | hescape := hu
  · rw [List.singleton_eq_append_iff] at hsplit
    obtain ⟨-, hquote⟩ | ⟨-, hnil⟩ := hsplit
    · cases hquote
      cases hc
    · cases hnil
  · obtain ⟨_, ⟨c, -, rfl⟩, rfl⟩ := mem_word_mul.1 hescape
    have hsplit : '\\' :: [c] = front ++ '"' :: behind := hsplit
    rw [List.cons_eq_append_iff] at hsplit
    obtain ⟨-, hquote⟩ | ⟨more, rfl, hmore⟩ := hsplit
    · cases hquote
    · obtain ⟨rfl, -⟩ | ⟨-, hnil⟩ := List.singleton_eq_append_iff.1 hmore
      · exact isEscaped_concat.2 ⟨rfl, hb⟩
      · cases hnil

theorem isEscaped_of_quote {before body front behind : List Char} (hb : ¬ IsEscaped before)
    (h : body ∈ stringUnit∗) (hsplit : body = front ++ '"' :: behind) :
    IsEscaped (before ++ front) := by
  obtain ⟨units, rfl, hunits⟩ := h
  induction units generalizing before front with
  | nil => simp at hsplit
  | cons unit units ih =>
    rw [List.forall_mem_cons] at hunits
    rw [List.flatten_cons, List.append_eq_append_iff] at hsplit
    obtain ⟨more, rfl, hrest⟩ | ⟨more, hunit, hquote⟩ := hsplit
    · rw [← List.append_assoc]
      exact ih (not_isEscaped_append_unit hb hunits.1) hunits.2 hrest
    · cases more with
      | nil =>
        -- the quote would start the next unit
        rw [List.append_nil] at hunit
        subst hunit
        have hrest : units.flatten = [] ++ '"' :: behind := hquote.symm
        have hnext := ih (not_isEscaped_append_unit hb hunits.1) hunits.2 hrest
        rwa [List.append_nil] at hnext
      | cons c more =>
        obtain ⟨rfl, -⟩ := List.cons.inj hquote
        exact isEscaped_of_quote_in_unit hb hunits.1 hunit

/-- A string ends at the first quote behind its opening one that is not escaped. -/
theorem Lexicon.exists_body_of_string {cs : List Char} (h : cs ∈ Lexicon.string) :
    ∃ body, cs = '"' :: (body ++ ['"']) ∧ ¬ IsEscaped body ∧
      ∀ front behind, body = front ++ '"' :: behind → IsEscaped front := by
  obtain ⟨_, ⟨body, hbody, quote, hquote, rfl⟩, rfl⟩ := mem_word_mul.1 h
  obtain rfl : quote = ['"'] := hquote
  exact ⟨body, rfl, not_isEscaped_append_units not_isEscaped_nil hbody,
    fun front behind => isEscaped_of_quote not_isEscaped_nil hbody⟩

/-! ## Pieces -/

/-- A piece of a source: a token, or a text that is skipped. -/
inductive Piece where
  | token (token : Token)
  | skipped (text : List Char)

namespace Piece

/-- The text of a piece. -/
def text : Piece → List Char
  | .token t => t.text.toList
  | .skipped cs => cs

/-- The token that a piece is. -/
def token? : Piece → Option Token
  | .token t => some t
  | .skipped _ => none

/-- The terminal of a piece, if it is a token. -/
def kind? (piece : Piece) : Option Terminal := piece.token?.map Token.kind

/-- The texts of some pieces, one behind the other. -/
def written (pieces : List Piece) : List Char := pieces.flatMap text

/-- A piece between the text before it and the text behind it. -/
structure Fits (piece : Piece) (before behind : List Char) : Prop where
  /-- The text is one of the terminal; that of a skipped piece is blanks or a comment. -/
  mem_language : piece.text ∈ Lexeme.language piece.kind?
  /-- No text of any terminal, of blanks or of a comment that starts here is longer. -/
  longest : NoLonger piece.text.length (piece.text ++ behind)
  /-- The last character of a string is its first quote that is not escaped. -/
  ends : piece.kind? = some .string → ∃ body, piece.text = '"' :: (body ++ ['"']) ∧
    ¬ IsEscaped body ∧ ∀ front rest, body = front ++ '"' :: rest → IsEscaped front
  /-- Lines and columns are counted from one, and a newline ends a line. -/
  mark_eq : ∀ token ∈ piece.token?,
    token.mark = ⟨1 + before.count '\n', 1 + (before.rtakeWhile (· != '\n')).length⟩

/-- Each of some pieces fits in its place, with a text behind all of them. -/
def AllFit (pieces : List Piece) (rest : List Char) : Prop :=
  ∀ before piece behind, pieces = before ++ piece :: behind →
    piece.Fits (written before) (written behind ++ rest)

variable {pieces : List Piece} {piece : Piece} {before rest : List Char}

@[simp] theorem written_concat (pieces : List Piece) (piece : Piece) :
    written (pieces ++ [piece]) = written pieces ++ piece.text := by
  simp [written]

theorem fits_skipped {text : List Char} (ht : text ∈ Lexeme.language none)
    (hl : NoLonger text.length (text ++ rest)) : (skipped text).Fits before rest where
  mem_language := ht
  longest := hl
  ends h := by cases h
  mark_eq token h := by cases h

theorem fits_token {kind : Terminal} {text : List Char} (ht : text ∈ kind.language)
    (hl : NoLonger text.length (text ++ rest)) :
    (token ⟨kind, String.ofList text, ({} : Mark).after before⟩).Fits before rest where
  mem_language := by rwa [Piece.text, String.toList_ofList]
  longest := by rwa [Piece.text, String.toList_ofList]
  ends h := by
    obtain rfl : kind = .string := Option.some.inj h
    rw [Piece.text, String.toList_ofList]
    exact exists_body_of_string ht
  mark_eq token h := by
    cases h
    exact Mark.after_eq before

/-- One more piece behind those that fit. -/
theorem AllFit.concat (h : AllFit pieces (piece.text ++ rest))
    (hp : piece.Fits (written pieces) rest) : AllFit (pieces ++ [piece]) rest := by
  intro before other behind hsplit
  obtain rfl | ⟨behind, last, rfl⟩ := behind.eq_nil_or_concat'
  · obtain ⟨rfl, hlast⟩ := List.append_inj' hsplit rfl
    cases hlast
    exact hp
  · have hsplit' : pieces ++ [piece] = before ++ other :: behind ++ [last] := by
      rw [hsplit, List.append_assoc]
      rfl
    obtain ⟨hpieces, hlast⟩ := List.append_inj' hsplit' rfl
    cases hlast
    rw [written_concat, List.append_assoc]
    exact h before other behind hpieces

end Piece

/-- What has been read of a text is its pieces so far. -/
theorem Lexed.exists_pieces {engine : Engine} {source rest : List Char} {tokens : List Token}
    {mark : Mark} (h : Lexed engine source tokens mark rest) :
    ∃ pieces, source = Piece.written pieces ++ rest ∧ tokens = pieces.filterMap Piece.token? ∧
      mark = ({} : Mark).after (Piece.written pieces) ∧ Piece.AllFit pieces rest := by
  induction h with
  | start =>
    refine ⟨[], rfl, rfl, rfl, ?_⟩
    intro before piece behind hsplit
    simp at hsplit
  | @skip tokens mark piece rest _ htext hlongest ih =>
    obtain ⟨pieces, hsource, htokens, hmark, hfit⟩ := ih
    refine ⟨pieces ++ [.skipped piece], ?_, ?_, ?_, ?_⟩
    · rw [hsource, Piece.written_concat, List.append_assoc]
      rfl
    · rw [List.filterMap_append, ← htokens]
      exact (List.append_nil _).symm
    · rw [Piece.written_concat, Mark.after_append, hmark]
      rfl
    · exact hfit.concat (Piece.fits_skipped htext hlongest)
  | @token tokens mark piece rest kind _ htext hlongest _ ih =>
    obtain ⟨pieces, hsource, htokens, rfl, hfit⟩ := ih
    let last : Piece := .token ⟨kind, String.ofList piece, ({} : Mark).after (Piece.written pieces)⟩
    have hlast : last.text = piece := String.toList_ofList
    refine ⟨pieces ++ [last], ?_, ?_, ?_, ?_⟩
    · rw [hsource, Piece.written_concat, List.append_assoc, hlast]
    · rw [List.filterMap_append, ← htokens]
      rfl
    · rw [Piece.written_concat, Mark.after_append, hlast]
    · exact Piece.AllFit.concat (by rwa [hlast]) (Piece.fits_token htext hlongest)

/-- A source that parses is its tokens and skipped pieces, one behind the other.  The tokens are
those that the tree is derived from.  Each piece fits in its place: its text is the longest there, a
string ends at its first quote that is not escaped, and a token is marked with its line and
column. -/
theorem parse_pieces {engine : Engine} {source : String} {tree : Node}
    (h : parse engine source = .ok tree) :
    ∃ pieces : List Piece, source.toList = Piece.written pieces ∧
      (Scan.ofText engine source).tokens = pieces.filterMap Piece.token? ∧
      (∃ d : Derivation (.rule .program),
        d.tokens = pieces.filterMap Piece.token? ∧ d.part.nodes = [tree]) ∧
      ∀ before piece behind, pieces = before ++ piece :: behind →
        piece.Fits (Piece.written before) (Piece.written behind) := by
  obtain ⟨tokens, mark, hlexed, hd⟩ := parse_eq_ok_iff.1 h
  obtain ⟨pieces, hsource, rfl, -, hfit⟩ := hlexed.exists_pieces
  rw [List.append_nil] at hsource
  refine ⟨pieces, hsource, ?_, hd, ?_⟩
  · rw [hlexed.ofText_eq]
  · intro before piece behind hsplit
    simpa using hfit before piece behind hsplit

/-- A comparison with an escaped quote, and a number on the line behind it. -/
def comparedQuote : Node :=
  .rule Rule.program.label
    [.rule Rule.compare.label
      [.token Terminal.name.label "x" (some ⟨1, some 1⟩),
        .token Terminal.comparison.label "<=" (some ⟨1, some 2⟩),
        .token Terminal.string.label "\"\\\"\"" (some ⟨1, some 4⟩)] (some ⟨1, some 1⟩),
      .token Terminal.number.label ".5" (some ⟨2, some 1⟩)]
    (some ⟨1, some 1⟩)

theorem pieces_comparedQuote :
    parse .lalr "x<=\"\\\"\"\r\n.5 #c" = .ok comparedQuote ∧
      ∃ pieces : List Piece, "x<=\"\\\"\"\r\n.5 #c".toList = Piece.written pieces ∧
        (Scan.ofText .lalr "x<=\"\\\"\"\r\n.5 #c").tokens = pieces.filterMap Piece.token? ∧
        (∃ d : Derivation (.rule .program),
          d.tokens = pieces.filterMap Piece.token? ∧ d.part.nodes = [comparedQuote]) ∧
        ∀ before piece behind, pieces = before ++ piece :: behind →
          piece.Fits (Piece.written before) (Piece.written behind) := by
  have hparse : parse .lalr "x<=\"\\\"\"\r\n.5 #c" = .ok comparedQuote := by cbv
  exact ⟨hparse, parse_pieces hparse⟩

end Reckon
