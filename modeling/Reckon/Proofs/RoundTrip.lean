import Reckon.Proofs.Layout
import Reckon.Proofs.Parsing

/-!
# Round trip

Every well-shaped tree can be written as a text, and parsing any such text gives the tree back, but
for the positions.
-/

open Computability

namespace Reckon

open Lexeme Lexicon Layout

/-- A text that a program may be written as. -/
inductive Written : Node → String → Prop
  | program {statements : List Node} {position : Option Position} {words : List (List Word)}
      {text : String} (spelled : List.Forall₂ SpelledStatement statements words)
      (laid : text.toList ∈ page words) :
      Written (.rule Rule.program.label statements position) text

/-! ## The words of a page -/

/-- The words of some statements, with separators around each. -/
inductive Composed : List Node → List Word → Prop
  | nil : Composed [] []
  | last {a : Node} {us : List Word} (ha : SpelledStatement a us) : Composed [a] us
  | separator {text : String} {as : List Node} {ws : List Word} (h : Composed as ws) :
      Composed as (⟨.separator, text⟩ :: ws)
  | statement {a : Node} {us : List Word} {text : String} {as : List Node} {ws : List Word}
      (ha : SpelledStatement a us) (h : Composed as ws) :
      Composed (a :: as) (us ++ ⟨.separator, text⟩ :: ws)

namespace Composed

variable {as : List Node} {ws : List Word}

theorem separators {seps : List Word} (hseps : Scan.AllSeparators seps) (h : Composed as ws) :
    Composed as (seps ++ ws) := by
  induction seps with
  | nil => exact h
  | cons sep seps ih =>
    obtain ⟨kind, text⟩ := sep
    obtain ⟨rfl, hothers⟩ := List.forall_mem_cons.1 hseps
    exact .separator (ih hothers)

/-- Tokens with these words are a program with these statements. -/
theorem reads (h : Composed as ws) {ts : List Token} (hts : ts.map Token.word = ws) :
    ∃ (lines : Derivation Pattern.lines) (last : Derivation (.optional (.rule .stmt))),
      lines.tokens ++ last.tokens = ts ∧
      (lines.part.nodes ++ last.part.nodes).map Node.unplaced = as.map Node.unplaced := by
  induction h generalizing ts with
  | nil =>
    obtain rfl := List.map_eq_nil_iff.1 hts
    exact ⟨.stop, .absent, rfl, rfl⟩
  | last ha =>
    obtain ⟨d, x, rfl, hpart, hx⟩ := ha.reads hts
    refine ⟨.stop, .present d, rfl, ?_⟩
    simp [Derivation.part, hpart, Operand.part, hx]
  | separator _ ih =>
    obtain ⟨sep, rest, rfl, hword, hrest⟩ := List.map_eq_cons_iff.1 hts
    obtain ⟨hsep, -⟩ := Word.mk.inj hword
    obtain ⟨lines, last, rfl, hnodes⟩ := ih hrest
    refine ⟨.more (.seq .absent (.terminal sep hsep)) lines, last, rfl, ?_⟩
    simpa [Derivation.part, Part.ofToken, hsep, Terminal.isKept] using hnodes
  | statement ha _ ih =>
    obtain ⟨first, behind, rfl, hfirst, hbehind⟩ := List.map_eq_append_iff.1 hts
    obtain ⟨sep, rest, rfl, hword, hrest⟩ := List.map_eq_cons_iff.1 hbehind
    obtain ⟨hsep, -⟩ := Word.mk.inj hword
    obtain ⟨d, x, rfl, hpart, hx⟩ := ha.reads hfirst
    obtain ⟨lines, last, rfl, hnodes⟩ := ih hrest
    refine ⟨.more (.seq (.present d) (.terminal sep hsep)) lines, last, ?_, ?_⟩
    · simp [Derivation.tokens]
    · rw [List.map_append] at hnodes
      simp [Derivation.part, Part.ofToken, hsep, Terminal.isKept, hpart, Operand.part, hx, hnodes]

end Composed

/-! ## Scanning a page -/

namespace Scan

variable {engine : Engine} {as : List Node} {words : List (List Word)} {piece : List Char}

theorem composed_append_separators {a : Node} {us seps : List Word} (ha : SpelledStatement a us)
    (hseps : AllSeparators seps) : Composed [a] (us ++ seps) := by
  cases seps with
  | nil =>
    rw [List.append_nil]
    exact .last ha
  | cons sep seps =>
    obtain ⟨kind, text⟩ := sep
    obtain ⟨rfl, hothers⟩ := List.forall_mem_cons.1 hseps
    have hrest := Composed.separators hothers .nil
    rw [List.append_nil] at hrest
    exact .statement ha hrest

theorem yields_sentences (hs : List.Forall₂ SpelledStatement as words)
    (hshape : ∀ a ∈ as, a.IsStatement Terminal.Spells fun _ => True)
    (h : piece ∈ sentences words) :
    ∃ ws next, Composed as ws ∧ Yields engine true piece ws next [] := by
  induction hs generalizing piece with
  | nil =>
    obtain rfl : piece = [] := h
    exact ⟨[], true, .nil, .refl []⟩
  | @cons a us as words ha hs ih =>
    rw [List.forall_mem_cons] at hshape
    have hspells := ha.spells hshape.1
    have htail := ha.tail_ne_print
    cases hs with
    | nil =>
      obtain ⟨first, hfirst, after, hafter, rfl⟩ := Language.mem_mul.1 h
      obtain ⟨middle, hsentence⟩ := yields_sentence hspells (fun _ _ _ => rfl) htail hfirst
        (bounded_breaks hafter)
      obtain ⟨seps, next, hseps, -, hbreaks⟩ := yields_breaks hafter []
      rw [List.append_nil] at hbreaks
      exact ⟨us ++ seps, next, composed_append_separators ha hseps, hsentence.trans hbreaks⟩
    | cons hb hs =>
      obtain ⟨first, hfirst, behind, hbehind, rfl⟩ := Language.mem_mul.1 h
      obtain ⟨after, hafter, rest, hrest, rfl⟩ := Language.mem_mul.1 hbehind
      obtain ⟨middle, hsentence⟩ := yields_sentence hspells (fun _ _ _ => rfl) htail hfirst
        (bounded_someBreaks hafter rest)
      obtain ⟨text, seps, hseps, hbreaks⟩ := yields_someBreaks hafter rest
      obtain ⟨ws, next, hcomposed, hyields⟩ := ih hshape.2 hrest
      exact ⟨us ++ ⟨.separator, text⟩ :: (seps ++ ws), next,
        .statement ha (hcomposed.separators hseps), hsentence.trans (hbreaks.trans hyields)⟩

theorem yields_page (hs : List.Forall₂ SpelledStatement as words)
    (hshape : ∀ a ∈ as, a.IsStatement Terminal.Spells fun _ => True) (h : piece ∈ page words) :
    ∃ ws next, Composed as ws ∧ Yields engine true piece ws next [] := by
  obtain ⟨before, hbefore, rest, hrest, rfl⟩ := Language.mem_mul.1 h
  obtain ⟨seps, start, hseps, hstart, hbreaks⟩ := yields_breaks hbefore rest
  obtain rfl := hstart rfl
  obtain ⟨ws, next, hcomposed, hyields⟩ := yields_sentences hs hshape hrest
  exact ⟨seps ++ ws, next, hcomposed.separators hseps, hbreaks.trans hyields⟩

end Scan

/-! ## Every list of words has a page -/

namespace Layout

theorem exists_sentence (us : List Word) : ∃ piece, piece ∈ sentence us := by
  induction us with
  | nil => exact ⟨[], rfl⟩
  | cons word us ih =>
    cases us with
    | nil => exact ⟨word.text.toList, rfl⟩
    | cons second us =>
      obtain ⟨piece, hpiece⟩ := ih
      have hblank : [' '] ∈ blanks := mem_oneOf_mul_star.2 ⟨' ', [], rfl, by simp, rfl⟩
      exact ⟨_, Language.append_mem_mul rfl (Language.append_mem_mul hblank hpiece)⟩

theorem nil_mem_breaks : [] ∈ breaks :=
  Language.append_mem_mul (Language.nil_mem_kstar _) (Language.nil_mem_kstar _)

theorem newline_mem_someBreaks : ['\n'] ∈ someBreaks := by
  have hline : ['\n'] ∈ lineEnd := .inl (Terminal.mem_separator.2 (.inr (.inl rfl)))
  exact Language.append_mem_mul (Language.nil_mem_kstar _)
    (Language.append_mem_mul hline nil_mem_breaks)

theorem exists_page (words : List (List Word)) : ∃ piece, piece ∈ page words := by
  suffices h : ∃ piece, piece ∈ sentences words by
    obtain ⟨piece, hpiece⟩ := h
    exact ⟨_, Language.append_mem_mul nil_mem_breaks hpiece⟩
  induction words with
  | nil => exact ⟨[], rfl⟩
  | cons us words ih =>
    obtain ⟨first, hfirst⟩ := exists_sentence us
    cases words with
    | nil => exact ⟨_, Language.append_mem_mul hfirst nil_mem_breaks⟩
    | cons vs words =>
      obtain ⟨rest, hrest⟩ := ih
      have hbehind := Language.append_mem_mul newline_mem_someBreaks hrest
      exact ⟨_, Language.append_mem_mul hfirst hbehind⟩

end Layout

theorem exists_spelled_statements {texts : Terminal → String → Prop}
    {places : Option Position → Prop} {statements : List Node}
    (h : ∀ a ∈ statements, a.IsStatement texts places) :
    ∃ words, List.Forall₂ SpelledStatement statements words := by
  induction statements with
  | nil => exact ⟨[], .nil⟩
  | cons a statements ih =>
    rw [List.forall_mem_cons] at h
    obtain ⟨us, hus⟩ := h.1.exists_spelled
    obtain ⟨words, hwords⟩ := ih h.2
    exact ⟨us :: words, .cons hus hwords⟩

/-- Every well-shaped tree can be written, and every text it can be written as is read as that tree
by each engine, but for the positions. -/
theorem parse_of_written {tree : Node} (h : tree.WellShaped) :
    (∃ text, Written tree text) ∧
      ∀ engine text, Written tree text →
        ∃ parsed, parse engine text = .ok parsed ∧ parsed.unplaced = tree.unplaced := by
  obtain ⟨hstatements⟩ := h
  constructor
  · obtain ⟨words, hspelled⟩ := exists_spelled_statements hstatements
    obtain ⟨piece, hpiece⟩ := Layout.exists_page words
    exact ⟨String.ofList piece, .program hspelled (by rwa [String.toList_ofList])⟩
  · rintro engine text ⟨hspelled, hpage⟩
    obtain ⟨ws, next, hcomposed, hyields⟩ := Scan.yields_page hspelled hstatements hpage
    obtain ⟨tokens, reached, hwords, hscan⟩ := hyields {}
    obtain ⟨lines, last, htokens, hnodes⟩ := hcomposed.reads hwords
    have htext : Scan.ofText engine text = ⟨tokens, none⟩ := by
      rw [Scan.ofText, hscan, Scan.ofChars]
      simp [first?]
    obtain ⟨reading, parsed, hrun, hfinish, hparsed⟩ :=
      Reading.finish?_of_derivation (.program lines last)
    rw [Derivation.tokens_program, htokens] at hrun
    refine ⟨parsed, ?_, ?_⟩
    · rw [parse, htext, Scan.parse_eq_ok]
      exact ⟨rfl, reading, hrun, hfinish⟩
    · rw [Derivation.part_program] at hparsed
      simp only [Part.wrap, Nonterminal.isInlined, List.cons.injEq, and_true] at hparsed
      rw [← hparsed, Node.unplaced, Node.unplaced, Node.unplacedAll_eq_map, Node.unplacedAll_eq_map]
      rw [Part.nodes_append, hnodes]
      rfl

/-- A sum in a product, printed. -/
def printedProduct : Node :=
  .rule Rule.program.label
    [.rule Rule.print.label
      [.rule Rule.mul.label
        [.rule Rule.add.label
          [.token Terminal.name.label "a" none, .token Terminal.plus.label "+" none,
            .token Terminal.number.label "1" none] none,
          .token Terminal.star.label "*" none, .token Terminal.name.label "b" none] none] none] none

theorem printedProduct_wellShaped : printedProduct.WellShaped := by
  have hnumber : ['1'] ∈ number :=
    mem_number.2 ⟨['1'], [], rfl, .inl (mem_digits.2 ⟨by simp, by simp⟩), .inl rfl⟩
  refine .statements (List.forall_mem_singleton.2 (.print (.binary rfl (.binary rfl
    (.token rfl ?_ trivial) ?_ trivial (.token rfl ?_ trivial) trivial) ?_ trivial
    (.token rfl ?_ trivial) trivial) trivial))
  · exact ⟨mem_oneOf_mul_star.2 ⟨'a', [], rfl, by simp, rfl⟩, fun _ => by decide⟩
  · exact ⟨rfl, by simp⟩
  · exact ⟨hnumber, by simp⟩
  · exact ⟨rfl, by simp⟩
  · exact ⟨mem_oneOf_mul_star.2 ⟨'b', [], rfl, by simp, rfl⟩, fun _ => by decide⟩

theorem printedProduct_written : Written printedProduct "print ( a + 1 ) * b #\n" := by
  refine .program (.cons (.print (.binary rfl (by decide) (.group (.binary rfl (by decide)
    (.token rfl) (.token rfl))) (.token rfl))) .nil) ?_
  have hblank : [' '] ∈ blanks := mem_oneOf_mul_star.2 ⟨' ', [], rfl, by simp, rfl⟩
  have hcomment : ['#'] ∈ comment := mem_word_mul.2 ⟨[], Language.nil_mem_kstar _, rfl⟩
  have hend : ['#', '\n'] ∈ lineEnd := .inr (Language.append_mem_mul hcomment rfl)
  have hline : ['#', '\n'] ∈ lineEnd * spaces :=
    Language.append_mem_mul hend (Language.nil_mem_kstar _)
  have hbreaks : [' ', '#', '\n'] ∈ breaks := by
    refine Language.append_mem_mul (mem_spaces_of_blanks hblank) ⟨[['#', '\n']], rfl, ?_⟩
    rwa [List.forall_mem_singleton]
  have word (text : String) {cs : List Char} {l : Language Char} (h : cs ∈ l) :
      text.toList ++ ' ' :: cs ∈ Lexicon.word text * (blanks * l) :=
    Language.append_mem_mul rfl (Language.append_mem_mul hblank h)
  have hlast : ['b'] ∈ Lexicon.word "b" := rfl
  have hsentence :=
    word "print" (word "(" (word "a" (word "+" (word "1" (word ")" (word "*" hlast))))))
  have hpage := Language.append_mem_mul nil_mem_breaks (Language.append_mem_mul hsentence hbreaks)
  simpa [page, sentences, sentence] using hpage

theorem parse_printedProduct :
    printedProduct.WellShaped ∧ Written printedProduct "print ( a + 1 ) * b #\n" ∧
      ∃ parsed, parse .lalr "print ( a + 1 ) * b #\n" = .ok parsed ∧
        parsed.unplaced = printedProduct.unplaced :=
  ⟨printedProduct_wellShaped, printedProduct_written,
    (parse_of_written printedProduct_wellShaped).2 .lalr _ printedProduct_written⟩

end Reckon
