import Reckon.Program.Parse
import Reckon.Proofs.Lexing
import Reckon.Proofs.Soundness
import Reckon.Proofs.Unambiguous

/-!
# Parsing

`parse` accepts the texts whose tokens have a derivation, with the tree of that derivation.  On any
other text it reports the first place where the text stops being the front part of a program.
-/

namespace Reckon

/-- Tokens that are a whole program. -/
def Derivable (tokens : List Token) : Prop :=
  ∃ d : Derivation (.rule .program), d.tokens = tokens

/-- Tokens that some program starts with. -/
def Viable (tokens : List Token) : Prop :=
  ∃ d : Derivation (.rule .program), tokens <+: d.tokens

namespace Reading

variable {ts : List Token} {tree : Node}

theorem derivation_iff :
    (∃ d : Derivation (.rule .program), d.tokens = ts ∧ d.part.nodes = [tree]) ↔
      ∃ reading, Reading.run {} ts = .ok reading ∧ reading.finish? = some tree := by
  constructor
  · rintro ⟨d, rfl, hd⟩
    obtain ⟨reading, found, hrun, hfinish, hnodes⟩ := finish?_of_derivation d
    rw [hd] at hnodes
    cases hnodes
    exact ⟨reading, hrun, hfinish⟩
  · rintro ⟨reading, hrun, hfinish⟩
    exact derivation_of_finish? hrun hfinish

theorem derivable_iff :
    Derivable ts ↔
      ∃ reading tree, Reading.run {} ts = .ok reading ∧ reading.finish? = some tree := by
  constructor
  · rintro ⟨d, rfl⟩
    obtain ⟨reading, tree, hrun, hfinish, -⟩ := finish?_of_derivation d
    exact ⟨reading, tree, hrun, hfinish⟩
  · rintro ⟨reading, tree, hrun, hfinish⟩
    obtain ⟨d, hd, -⟩ := derivation_of_finish? hrun hfinish
    exact ⟨d, hd⟩

/-- Tokens can be read as long as some program starts with them. -/
theorem viable_iff : Viable ts ↔ ∃ reading, Reading.run {} ts = .ok reading := by
  constructor
  · rintro ⟨d, more, hd⟩
    obtain ⟨reading, tree, hrun, -⟩ := finish?_of_derivation d
    rw [← hd, run_append] at hrun
    cases hts : Reading.run {} ts with
    | ok next => exact ⟨next, rfl⟩
    | error token => simp [hts] at hrun
  · rintro ⟨reading, hrun⟩
    obtain ⟨us, after, tree, hus, hfinish⟩ := exists_completion reading
    have hall : Reading.run {} (ts ++ us) = .ok after := by
      rw [run_append, hrun]
      exact hus
    obtain ⟨d, hd, -⟩ := derivation_of_finish? hall hfinish
    exact ⟨d, us, hd.symm⟩

theorem exists_of_run_eq_error {reading : Reading} {token : Token}
    (h : reading.run ts = .error token) :
    ∃ before after next, ts = before ++ token :: after ∧ reading.run before = .ok next ∧
      next.step? token = none := by
  induction ts generalizing reading with
  | nil => cases h
  | cons t ts ih =>
    rw [run] at h
    cases hstep : reading.step? t with
    | none =>
      rw [hstep] at h
      cases h
      exact ⟨[], ts, reading, rfl, rfl, hstep⟩
    | some next =>
      rw [hstep] at h
      obtain ⟨before, after, last, rfl, hbefore, htoken⟩ := ih h
      exact ⟨t :: before, after, last, rfl, by rw [run, hstep]; exact hbefore, htoken⟩

/-- The token that cannot be read is the first that no program goes on with. -/
theorem run_eq_error_iff {token : Token} :
    Reading.run {} ts = .error token ↔
      ∃ before after, ts = before ++ token :: after ∧ Viable before ∧
        ¬ Viable (before ++ [token]) := by
  constructor
  · intro h
    obtain ⟨before, after, next, rfl, hbefore, htoken⟩ := exists_of_run_eq_error h
    refine ⟨before, after, rfl, viable_iff.2 ⟨next, hbefore⟩, ?_⟩
    rw [viable_iff, run_append, hbefore]
    simp [run, htoken]
  · rintro ⟨before, after, rfl, hbefore, htoken⟩
    obtain ⟨reading, hbefore⟩ := viable_iff.1 hbefore
    rw [viable_iff, run_append, hbefore] at htoken
    rw [run_append, hbefore]
    cases hstep : reading.step? token with
    | none => simp [run, hstep]
    | some next => exact absurd ⟨next, by simp [run, hstep]⟩ htoken

end Reading

/-! ## Outcomes of a scan -/

namespace Scan

variable {engine : Engine} {scan : Scan}

theorem parse_eq_ok {tree : Node} :
    scan.parse engine = .ok tree ↔ scan.stuck = none ∧
      ∃ reading, Reading.run {} scan.tokens = .ok reading ∧ reading.finish? = some tree := by
  unfold parse
  split
  · simp_all
  · simp_all
  · split <;> simp_all

theorem parse_eq_unexpectedToken {token : Token} :
    scan.parse engine = .error (.unexpectedToken token) ↔
      Reading.run {} scan.tokens = .error token := by
  unfold parse
  split
  · simp_all
  · simp_all
  · split <;> simp_all

theorem parse_eq_unexpectedCharacter {c : Char} {mark : Mark} :
    scan.parse engine = .error (.unexpectedCharacter c mark) ↔
      scan.stuck = some (c, mark) ∧ Viable scan.tokens := by
  rw [Reading.viable_iff]
  unfold parse
  split
  · simp_all
  · simp_all
  · split <;> simp_all

theorem parse_eq_unexpectedEnd {mark : Option Mark} :
    scan.parse engine = .error (.unexpectedEnd mark) ↔
      scan.stuck = none ∧ Viable scan.tokens ∧ ¬ Derivable scan.tokens ∧
        engine.endMark? scan.tokens = mark := by
  rw [Reading.viable_iff, Reading.derivable_iff]
  unfold parse
  split
  · simp_all
  · simp_all
  · split <;> simp_all

end Scan

/-! ## Texts -/

section

variable {engine : Engine} {source : String} {tokens : List Token} {mark : Mark}

/-- A text lexed to its end has those tokens. -/
theorem Lexed.ofText_eq (h : Lexed engine source.toList tokens mark []) :
    Scan.ofText engine source = ⟨tokens, none⟩ :=
  h.ofChars_eq_of_end rfl

theorem Scan.lexed_of_stuck_eq_none (h : (ofText engine source).stuck = none) :
    ∃ mark, Lexed engine source.toList (ofText engine source).tokens mark [] := by
  obtain ⟨mark, rest, hlexed, -, hstuck⟩ := exists_lexed engine source
  rw [h, eq_comm, Option.map_eq_none_iff, List.head?_eq_none_iff] at hstuck
  subst hstuck
  exact ⟨mark, hlexed⟩

/-- Tokens read from the front of a text are the first tokens of its scan, and conversely. -/
theorem Scan.exists_lexed_iff :
    (∃ mark rest, Lexed engine source.toList tokens mark rest) ↔
      tokens <+: (ofText engine source).tokens := by
  constructor
  · rintro ⟨mark, rest, h⟩
    rw [ofText, h.ofChars_eq]
    exact List.prefix_append _ _
  · rintro ⟨more, hmore⟩
    obtain ⟨mark, rest, hlexed, -⟩ := exists_lexed engine source
    rw [← hmore] at hlexed
    exact hlexed.of_append

theorem parse_eq_ok_iff {tree : Node} :
    parse engine source = .ok tree ↔
      ∃ tokens mark, Lexed engine source.toList tokens mark [] ∧
        ∃ d : Derivation (.rule .program), d.tokens = tokens ∧ d.part.nodes = [tree] := by
  constructor
  · intro h
    obtain ⟨hstuck, hread⟩ := Scan.parse_eq_ok.1 h
    obtain ⟨mark, hlexed⟩ := Scan.lexed_of_stuck_eq_none hstuck
    exact ⟨_, mark, hlexed, Reading.derivation_iff.2 hread⟩
  · rintro ⟨tokens, mark, hlexed, hd⟩
    rw [parse, hlexed.ofText_eq, Scan.parse_eq_ok]
    exact ⟨rfl, Reading.derivation_iff.1 hd⟩

/-- Parsing accepts the texts whose tokens have a derivation, with its tree, and no tokens have two
derivations.  The word `print` is the keyword where the engine expects it, and else a name. -/
theorem parse_eq_ok_iff_derivation (engine : Engine) (source : String) :
    (∀ tree, parse engine source = .ok tree ↔
      ∃ tokens mark, Lexed engine source.toList tokens mark [] ∧
        ∃ d : Derivation (.rule .program), d.tokens = tokens ∧ d.part.nodes = [tree]) ∧
    (∀ d e : Derivation (.rule .program), d.tokens = e.tokens → d = e) ∧
    ∀ before token after, (Scan.ofText engine source).tokens = before ++ token :: after →
      token.text = "print" →
        engine.ExpectsKeyword before ∧ token.kind = .print ∨
          ¬ engine.ExpectsKeyword before ∧ token.kind = .name := by
  refine ⟨fun tree => parse_eq_ok_iff, fun d e => Derivation.eq_of_tokens_eq, ?_⟩
  intro before token after htokens htext
  obtain ⟨mark, rest, hlexed, -⟩ := Scan.exists_lexed engine source
  rw [htokens] at hlexed
  obtain ⟨hpiece, hprint⟩ := hlexed.token_text
  by_cases hkeyword : engine.ExpectsKeyword before
  · exact .inl ⟨hkeyword, hprint.2 ⟨htext, hkeyword⟩⟩
  · rw [htext] at hpiece
    have hkind := Lexeme.kind_of_print hpiece
    exact .inr ⟨hkeyword, hkind.resolve_left fun h => hkeyword (hprint.1 h).2⟩

/-! ## Faults -/

theorem parse_eq_unexpectedToken_iff {token : Token} :
    parse engine source = .error (.unexpectedToken token) ↔
      ∃ before mark rest, Lexed engine source.toList (before ++ [token]) mark rest ∧
        Viable before ∧ ¬ Viable (before ++ [token]) := by
  rw [parse, Scan.parse_eq_unexpectedToken, Reading.run_eq_error_iff]
  constructor
  · rintro ⟨before, after, htokens, hbefore, htoken⟩
    rw [List.append_cons] at htokens
    obtain ⟨mark, rest, hlexed⟩ := Scan.exists_lexed_iff.2 ⟨after, htokens.symm⟩
    exact ⟨before, mark, rest, hlexed, hbefore, htoken⟩
  · rintro ⟨before, mark, rest, hlexed, hbefore, htoken⟩
    obtain ⟨after, htokens⟩ := Scan.exists_lexed_iff.1 ⟨mark, rest, hlexed⟩
    exact ⟨before, after, by rw [List.append_cons, htokens], hbefore, htoken⟩

theorem parse_eq_unexpectedCharacter_iff {c : Char} :
    parse engine source = .error (.unexpectedCharacter c mark) ↔
      ∃ tokens rest, Lexed engine source.toList tokens mark (c :: rest) ∧ Viable tokens ∧
        ∀ kind, ∀ piece ∈ Lexeme.language kind, ¬ piece <+: c :: rest := by
  rw [parse, Scan.parse_eq_unexpectedCharacter]
  constructor
  · rintro ⟨hstuck, hviable⟩
    obtain ⟨reached, rest, hlexed, hend, hrest⟩ := Scan.exists_lexed engine source
    rw [hstuck, eq_comm, Option.map_eq_some_iff] at hrest
    obtain ⟨d, hhead, hd⟩ := hrest
    cases hd
    obtain ⟨rest, rfl⟩ := List.head?_eq_some_iff.1 hhead
    exact ⟨_, rest, hlexed, hviable, Lexeme.first?_eq_none_iff.1 hend⟩
  · rintro ⟨tokens, rest, hlexed, hviable, hend⟩
    have hscan := hlexed.ofChars_eq_of_end (Lexeme.first?_eq_none_iff.2 hend)
    rw [Scan.ofText, hscan]
    exact ⟨rfl, hviable⟩

theorem derivable_nil : Derivable [] := ⟨.program .stop .absent, rfl⟩

theorem parse_eq_unexpectedEnd_iff {place : Option Mark} :
    parse engine source = .error (.unexpectedEnd place) ↔
      ∃ tokens last mark, Lexed engine source.toList (tokens ++ [last]) mark [] ∧
        Viable (tokens ++ [last]) ∧ ¬ Derivable (tokens ++ [last]) ∧
        (engine = .lalr ∧ place = some last.mark ∨ engine = .earley ∧ place = none) := by
  rw [parse, Scan.parse_eq_unexpectedEnd]
  constructor
  · rintro ⟨hstuck, hviable, hderivable, hmark⟩
    obtain ⟨mark, hlexed⟩ := Scan.lexed_of_stuck_eq_none hstuck
    generalize (Scan.ofText engine source).tokens = all at hlexed hviable hderivable hmark
    obtain rfl | ⟨tokens, last, rfl⟩ := all.eq_nil_or_concat'
    · exact absurd derivable_nil hderivable
    · refine ⟨tokens, last, mark, hlexed, hviable, hderivable, ?_⟩
      subst hmark
      cases engine with
      | lalr => exact .inl ⟨rfl, by simp [Engine.endMark?]⟩
      | earley => exact .inr ⟨rfl, rfl⟩
  · rintro ⟨tokens, last, mark, hlexed, hviable, hderivable, hplace⟩
    rw [hlexed.ofText_eq]
    refine ⟨rfl, hviable, hderivable, ?_⟩
    obtain ⟨rfl, rfl⟩ | ⟨rfl, rfl⟩ := hplace
    · simp [Engine.endMark?]
    · rfl

/-- Each fault is reported at the first place where the text stops being the front part of a
program: a token that no program goes on with, a character where no piece starts, or the end of a
text that only starts a program.  Any other text is a program. -/
theorem parse_eq_error_iff_viable (engine : Engine) (source : String) :
    (∀ token, parse engine source = .error (.unexpectedToken token) ↔
      ∃ before mark rest, Lexed engine source.toList (before ++ [token]) mark rest ∧
        Viable before ∧ ¬ Viable (before ++ [token])) ∧
    (∀ c mark, parse engine source = .error (.unexpectedCharacter c mark) ↔
      ∃ tokens rest, Lexed engine source.toList tokens mark (c :: rest) ∧ Viable tokens ∧
        ∀ kind, ∀ piece ∈ Lexeme.language kind, ¬ piece <+: c :: rest) ∧
    (∀ place, parse engine source = .error (.unexpectedEnd place) ↔
      ∃ tokens last mark, Lexed engine source.toList (tokens ++ [last]) mark [] ∧
        Viable (tokens ++ [last]) ∧ ¬ Derivable (tokens ++ [last]) ∧
        (engine = .lalr ∧ place = some last.mark ∨ engine = .earley ∧ place = none)) ∧
    ((∃ tree, parse engine source = .ok tree) ↔
      ∃ tokens mark, Lexed engine source.toList tokens mark [] ∧ Derivable tokens) := by
  refine ⟨fun token => parse_eq_unexpectedToken_iff, fun c mark => parse_eq_unexpectedCharacter_iff,
    fun place => parse_eq_unexpectedEnd_iff, ?_⟩
  constructor
  · rintro ⟨tree, htree⟩
    obtain ⟨tokens, mark, hlexed, d, hd, -⟩ := parse_eq_ok_iff.1 htree
    exact ⟨tokens, mark, hlexed, d, hd⟩
  · rintro ⟨tokens, mark, hlexed, d, hd⟩
    obtain ⟨reading, tree, -, -, hnodes⟩ := Reading.finish?_of_derivation d
    exact ⟨tree, parse_eq_ok_iff.2 ⟨tokens, mark, hlexed, d, hd, hnodes⟩⟩

end

end Reckon
