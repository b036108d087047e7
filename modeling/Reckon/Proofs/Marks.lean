import Reckon.Proofs.Pieces

/-!
# Marks in a source

A mark leads back to its place: behind the newlines that it counts as lines, and behind the
characters that it counts as columns, stands the text of the token (`Lexed.text_prefix`).  From one
token to the next the marks go forward (`Lexed.pairwise_before`).
-/

namespace Reckon

/-! ## The order of places -/

/-- Whether a position is an earlier line, or an earlier column of the same line. -/
def Position.Before (p q : Position) : Prop :=
  p.line < q.line ∨ p.line = q.line ∧ ∃ c ∈ p.column, ∃ d ∈ q.column, c < d

namespace Mark

variable {a b c : Mark}

theorem before_iff :
    a.position.Before b.position ↔ a.line < b.line ∨ a.line = b.line ∧ a.column < b.column := by
  simp [Position.Before, position]

theorem before_trans (hab : a.position.Before b.position) (hbc : b.position.Before c.position) :
    a.position.Before c.position := by
  rw [before_iff] at *
  omega

theorem not_before_self (a : Mark) : ¬ a.position.Before a.position := by
  rw [before_iff]
  omega

theorem not_before_of_before (h : a.position.Before b.position) :
    ¬ b.position.Before a.position := by
  rw [before_iff] at *
  omega

theorem before_next (mark : Mark) (c : Char) : mark.position.Before (mark.next c).position := by
  rw [before_iff, next]
  split_ifs
  · exact .inl (Nat.lt_succ_self _)
  · exact .inr ⟨rfl, Nat.lt_succ_self _⟩

theorem before_after (mark : Mark) {cs : List Char} (h : cs ≠ []) :
    mark.position.Before (mark.after cs).position := by
  induction cs generalizing mark with
  | nil => exact absurd rfl h
  | cons c cs ih =>
    by_cases hcs : cs = []
    · subst hcs
      exact mark.before_next c
    · exact before_trans (mark.before_next c) (ih (mark.next c) hcs)

/-! ## The text at a mark -/

/-- What is left of a text behind some of its newlines. -/
def dropLines : Nat → List Char → List Char
  | 0, cs => cs
  | n + 1, cs => ((dropLines n cs).dropWhile (· != '\n')).tail

/-- The text from a mark on. -/
def textFrom (mark : Mark) (source : List Char) : List Char :=
  (dropLines (mark.line - 1) source).drop (mark.column - 1)

theorem dropLines_append (before rest : List Char) :
    dropLines (before.count '\n') (before ++ rest) = before.rtakeWhile (· != '\n') ++ rest := by
  induction before using List.reverseRecOn generalizing rest with
  | nil => rfl
  | append_singleton before c ih =>
    have hall : ∀ d ∈ before.rtakeWhile (· != '\n'), (d != '\n') = true :=
      fun d => List.mem_rtakeWhile_imp (p := (· != '\n'))
    rw [List.append_assoc, List.count_append, List.rtakeWhile_concat]
    by_cases hc : c = '\n'
    · subst hc
      rw [List.count_singleton_self, dropLines, ih, List.dropWhile_append_of_pos hall]
      rfl
    · rw [List.count_singleton, if_neg (by simpa using hc), if_pos (by simpa using hc),
        List.append_assoc]
      exact ih _

theorem textFrom_after (before rest : List Char) :
    (({} : Mark).after before).textFrom (before ++ rest) = rest := by
  rw [textFrom, after_eq, Nat.add_sub_cancel_left, Nat.add_sub_cancel_left, dropLines_append,
    List.drop_left]

end Mark

/-! ## The marks of tokens -/

namespace Lexed

variable {engine : Engine} {source rest : List Char} {tokens : List Token} {mark : Mark}

/-- The text of a token stands at its mark. -/
theorem text_prefix (h : Lexed engine source tokens mark rest) {token : Token}
    (ht : token ∈ tokens) : token.text.toList <+: token.mark.textFrom source := by
  obtain ⟨pieces, hsource, rfl, -, hfit⟩ := h.exists_pieces
  obtain ⟨piece, hpiece, htoken⟩ := List.mem_filterMap.1 ht
  obtain ⟨before, behind, rfl⟩ := List.append_of_mem hpiece
  have hmark := (hfit before piece behind rfl).mark_eq token htoken
  rw [← Mark.after_eq] at hmark
  have hsplit :
      source = Piece.written before ++ (piece.text ++ (Piece.written behind ++ rest)) := by
    rw [hsource]
    simp [Piece.written]
  have htext : piece.text = token.text.toList := by
    cases piece with
    | token found =>
      cases htoken
      rfl
    | skipped text => cases htoken
  rw [hmark, hsplit, Mark.textFrom_after, htext]
  exact List.prefix_append _ _

/-- The tokens of a text come one behind the other, and all of them before the place reached. -/
theorem pairwise_before (h : Lexed engine source tokens mark rest) :
    tokens.Pairwise (fun a b => a.mark.position.Before b.mark.position) ∧
      ∀ token ∈ tokens, token.mark.position.Before mark.position := by
  induction h with
  | start => exact ⟨.nil, by simp⟩
  | @skip tokens mark piece rest _ htext hlongest ih =>
    have hpiece := Lexeme.first?_pos (Scan.first?_piece (by simp) htext hlongest)
    have hnext := mark.before_after (List.ne_nil_of_length_pos hpiece)
    exact ⟨ih.1, fun token ht => Mark.before_trans (ih.2 token ht) hnext⟩
  | @token tokens mark piece rest kind _ htext hlongest hkeyword ih =>
    rw [Scan.expectsKeyword_iff] at hkeyword
    obtain ⟨base, hfirst, -⟩ := Scan.exists_base htext hlongest hkeyword
    have hnext := mark.before_after (List.ne_nil_of_length_pos (Lexeme.first?_pos hfirst))
    constructor
    · rw [List.pairwise_append]
      refine ⟨ih.1, List.pairwise_singleton _ _, ?_⟩
      intro token ht last hlast
      rw [List.mem_singleton.1 hlast]
      exact ih.2 token ht
    · intro token ht
      rw [List.mem_append, List.mem_singleton] at ht
      obtain ht | rfl := ht
      · exact Mark.before_trans (ih.2 token ht) hnext
      · exact hnext

end Lexed

end Reckon
