import Reckon.Interpretation
import Reckon.Proofs.Parsing

/-!
# Texts as literals

Every text can be written as a string literal.  Where the lexicon sees a literal end and what its
escapes stand for are settled in two places; both take a text piece by piece, and `Literal.Escape`
lists the pieces.  A literal made of them is one token whatever text it holds, and its value is
that text again: `interpret_literal`.
-/

namespace Reckon

open Lexeme Lexicon

namespace Literal

/-- How a character may be written between the quotes of a literal.  A backslash, a quote and a
newline have to be escaped, a tab and a carriage return may be. -/
inductive Escape : Char → List Char → Prop
  | backslash : Escape '\\' ['\\', '\\']
  | quote : Escape '"' ['\\', '"']
  | newline : Escape '\n' ['\\', 'n']
  | tab : Escape '\t' ['\\', 't']
  | carriageReturn : Escape '\r' ['\\', 'r']
  | plain {c : Char} (hslash : c ≠ '\\') (hquote : c ≠ '"') (hline : c ≠ '\n') : Escape c [c]

/-- The characters of a text, each written in one of its ways. -/
def Escaped (text body : List Char) : Prop :=
  ∃ pieces, List.Forall₂ Escape text pieces ∧ body = pieces.flatten

/-! ## One character -/

theorem unescape_cons {c : Char} (h : c ≠ '\\') (rest : List Char) :
    unescape (c :: rest) = c :: unescape rest := by
  rw [unescape]
  intro _ _ hc _
  exact h hc

namespace Escape

variable {c : Char} {piece : List Char}

theorem exists_piece (c : Char) : ∃ piece, Escape c piece := by
  by_cases hslash : c = '\\'
  · subst hslash
    exact ⟨_, .backslash⟩
  by_cases hquote : c = '"'
  · subst hquote
    exact ⟨_, .quote⟩
  by_cases hline : c = '\n'
  · subst hline
    exact ⟨_, .newline⟩
  · exact ⟨_, .plain hslash hquote hline⟩

/-- No piece ends a literal: a quote in it has its own backslash, and so has that backslash. -/
theorem mem_stringUnit (h : Escape c piece) : piece ∈ stringUnit := by
  have hescape (letter : Char) (hletter : letter ≠ '\n') : ['\\', letter] ∈ stringUnit :=
    .inr (mem_word_mul.2 ⟨[letter], ⟨letter, by simpa using hletter, rfl⟩, rfl⟩)
  cases h with
  | plain hslash hquote hline => exact .inl ⟨c, by simp [isPlain, hslash, hquote, hline], rfl⟩
  | _ => exact hescape _ (by decide)

theorem unescape_append (h : Escape c piece) (rest : List Char) :
    unescape (piece ++ rest) = c :: unescape rest := by
  cases h with
  | plain hslash hquote hline => exact unescape_cons hslash rest
  | _ => rfl

end Escape

/-! ## Whole texts -/

theorem exists_escaped (text : List Char) : ∃ body, Escaped text body := by
  induction text with
  | nil => exact ⟨[], [], .nil, rfl⟩
  | cons c text ih =>
    obtain ⟨_, pieces, hpieces, rfl⟩ := ih
    obtain ⟨piece, hpiece⟩ := Escape.exists_piece c
    exact ⟨_, piece :: pieces, .cons hpiece hpieces, rfl⟩

/-- A body between quotes. -/
def quote (body : List Char) : List Char := '"' :: (body ++ ['"'])

theorem unquote_quote (body : List Char) : unquote (quote body) = body := by
  have hlast : (quote body).getLast? = some '"' := by
    rw [quote, ← List.cons_append, List.getLast?_concat]
  have hlength : 2 ≤ (quote body).length := by simp [quote]
  rw [unquote, if_pos ⟨hlength, rfl, hlast⟩, quote, List.tail_cons, List.dropLast_concat]

namespace Escaped

variable {text body : List Char}

theorem mem_string (h : Escaped text body) : quote body ∈ Lexicon.string := by
  obtain ⟨pieces, hpieces, rfl⟩ := h
  have hunits : ∀ piece ∈ pieces, piece ∈ stringUnit := by
    induction hpieces with
    | nil => simp
    | cons hpiece _ ih => exact List.forall_mem_cons.2 ⟨hpiece.mem_stringUnit, ih⟩
  exact mem_word_mul.2 ⟨_, Language.append_mem_mul ⟨pieces, rfl, hunits⟩ rfl, rfl⟩

theorem unescape_eq (h : Escaped text body) : unescape body = text := by
  obtain ⟨pieces, hpieces, rfl⟩ := h
  induction hpieces with
  | nil => rfl
  | cons hpiece _ ih => rw [List.flatten_cons, hpiece.unescape_append, ih]

/-- The value of a literal is the text that it was written for. -/
theorem string_eq {text literal : String} (h : Escaped text.toList body)
    (hliteral : literal.toList = quote body) : Literal.string literal = text := by
  rw [Literal.string, hliteral, unquote_quote, h.unescape_eq, String.ofList_toList]

end Escaped

end Literal

/-! ## Programs of one literal -/

section

variable {engine : Engine} {literal : String}

/-- A string is one token, whatever stands in front of it and behind it. -/
theorem Lexed.string {source rest : List Char} {tokens : List Token} {mark : Mark}
    (h : Lexed engine source tokens mark (literal.toList ++ rest))
    (hliteral : literal.toList ∈ Terminal.string.language) :
    Lexed engine source (tokens ++ [⟨.string, literal, mark⟩]) (mark.after literal.toList)
      rest := by
  have hlongest := (first?_eq_some_iff.1 (first?_string hliteral rest)).2.2.2
  have hkeyword : Terminal.string = .print ↔
      literal.toList = "print".toList ∧ engine.ExpectsKeyword tokens := by
    refine iff_of_false (by decide) ?_
    rintro ⟨hword, -⟩
    obtain ⟨body, -, hbody⟩ := mem_word_mul.1 hliteral
    rw [hword] at hbody
    cases hbody
  have hall := h.token hliteral hlongest hkeyword
  rwa [String.ofList_toList] at hall

theorem Scan.ofText_string (hliteral : literal.toList ∈ Terminal.string.language) :
    ofText engine literal = ⟨[⟨.string, literal, {}⟩], none⟩ := by
  have hstart : Lexed engine literal.toList [] {} (literal.toList ++ []) := by
    rw [List.append_nil]
    exact .start
  exact (hstart.string hliteral).ofText_eq

theorem Scan.ofText_print (hliteral : literal.toList ∈ Terminal.string.language) :
    ofText engine ("print " ++ literal) =
      ⟨[⟨.print, "print", {}⟩, ⟨.string, literal, ⟨1, 7⟩⟩], none⟩ := by
  have hsource : "print".toList ++ ([' '] ++ literal.toList) = ("print " ++ literal).toList := by
    simp
  have hstart : Lexed engine ("print " ++ literal).toList [] {}
      ("print".toList ++ ([' '] ++ literal.toList)) := by
    rw [hsource]
    exact .start
  have hword : "print".toList ∈ Terminal.print.language := rfl
  have hblank : [' '] ∈ language none :=
    .inl (mem_oneOf_mul_star.2 ⟨' ', [], rfl, by simp, rfl⟩)
  -- A string starts with its quote, so the word and the blank in front of it end where they do.
  have hwordEnd : first? ("print".toList ++ ([' '] ++ literal.toList)) = some (some .name, 5) :=
    first?_name print_mem_name ([' '] ++ literal.toList)
  have hblankEnd : first? ([' '] ++ literal.toList) = some (none, 1) := by
    obtain ⟨body, -, hbody⟩ := mem_word_mul.1 hliteral
    rw [hbody]
    rfl
  have hprint := hstart.token hword (first?_eq_some_iff.1 hwordEnd).2.2.2
    (iff_of_true rfl ⟨rfl, .inr (.inl rfl)⟩)
  have hskip := hprint.skip hblank (first?_eq_some_iff.1 hblankEnd).2.2.2
  rw [← List.append_nil literal.toList] at hskip
  exact (hskip.string hliteral).ofText_eq

/-- The tree of the tokens of a text is evaluated. -/
theorem interpret_eq {source : String} {scan : Scan} {tree : Node}
    (hscan : Scan.ofText engine source = scan) (htree : scan.parse engine = .ok tree)
    (env : Environment) : interpret engine.name source env = evaluateIn env tree := by
  rw [interpret, parseNamed, Engine.ofName?_name]
  simp only [parse, hscan, htree]

end

/-- Every text can be written as a literal.  In whichever way its characters are escaped, the
literal is a single token, its value is the text, and printing it writes the text on a line. -/
theorem interpret_literal (engine : Engine) (text : String) (env : Environment) :
    (∃ body, Literal.Escaped text.toList body) ∧
      ∀ body, Literal.Escaped text.toList body →
        let literal := String.ofList (Literal.quote body)
        Scan.ofText engine literal = ⟨[⟨.string, literal, {}⟩], none⟩ ∧
        interpret engine.name literal env = (.ok (.text text), env) ∧
        interpret engine.name ("print " ++ literal) env =
          (.ok (.text text), { env with written := env.written ++ text ++ "\n" }) := by
  refine ⟨Literal.exists_escaped text.toList, fun body hbody => ?_⟩
  intro literal
  have hchars : literal.toList = Literal.quote body := String.toList_ofList
  have hmem : literal.toList ∈ Terminal.string.language := hchars ▸ hbody.mem_string
  have hvalue : Literal.string literal = text := hbody.string_eq hchars
  have hscan : Scan.ofText engine literal = ⟨[⟨.string, literal, {}⟩], none⟩ :=
    Scan.ofText_string hmem
  refine ⟨hscan, ?_, ?_⟩
  · rw [interpret_eq hscan rfl]
    show (Except.ok (Value.text (Literal.string literal)), env) = _
    rw [hvalue]
  · rw [interpret_eq (Scan.ofText_print hmem) rfl]
    show (Except.ok (Value.text (Literal.string literal)),
      env.writeLine (Literal.string literal)) = _
    rw [hvalue]
    rfl

/-- A quote, a tab and a backslash at the end. -/
def awkwardText : String := "\"\t\\"

/-- Its characters with the tab left as it is. -/
def awkwardBody : List Char := ['\\', '"', '\t', '\\', '\\']

theorem interpret_awkwardText :
    Literal.Escaped awkwardText.toList awkwardBody ∧
      Scan.ofText .earley "\"\\\"\t\\\\\"" =
        ⟨[⟨.string, "\"\\\"\t\\\\\"", {}⟩], none⟩ ∧
      interpret "lalr" "print \"\\\"\t\\\\\"" {} =
        (.ok (.text awkwardText), { written := awkwardText ++ "\n" }) := by
  have htab : Literal.Escape '\t' ['\t'] := .plain (by decide) (by decide) (by decide)
  have hescaped : Literal.Escaped awkwardText.toList awkwardBody :=
    ⟨_, .cons .quote (.cons htab (.cons .backslash .nil)), rfl⟩
  obtain ⟨hscan, -, -⟩ := (interpret_literal .earley awkwardText {}).2 awkwardBody hescaped
  obtain ⟨-, -, hprint⟩ := (interpret_literal .lalr awkwardText {}).2 awkwardBody hescaped
  exact ⟨hescaped, hscan, hprint⟩

end Reckon
