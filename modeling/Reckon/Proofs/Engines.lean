import Reckon.Proofs.Parsing
import Reckon.Tree.Outline

/-!
# The two engines

Both engines cut a text into the same pieces, and they differ only in the word `print` where no
statement can start: a name for one engine, the keyword for the other.  A keyword there continues no
program.  So the engines agree as long as the first has read no such name, and the second stops at
the first one (`engines_agree`).
-/

namespace Reckon

/-! ## Tokens -/

namespace Token

/-- Whether a token is the word `print` read as a name. -/
def isPrintName (token : Token) : Bool := token.kind == .name && token.text == "print"

/-- The token with the word `print` taken for the keyword. -/
def asKeyword (token : Token) : Token :=
  if token.isPrintName then { token with kind := .print } else token

theorem isPrintName_iff {token : Token} :
    token.isPrintName ↔ token.kind = .name ∧ token.text = "print" := by
  simp [isPrintName]

theorem asKeyword_of_isPrintName {token : Token} (h : token.isPrintName) :
    token.asKeyword = ⟨.print, "print", token.mark⟩ := by
  rw [asKeyword, if_pos h, (isPrintName_iff.1 h).2]

theorem separator_asKeyword (token : Token) :
    token.asKeyword.kind = .separator ↔ token.kind = .separator := by
  unfold asKeyword
  split
  · rename_i h
    simp [(isPrintName_iff.1 h).1]
  · rfl

theorem map_asKeyword {tokens : List Token} (h : ∀ token ∈ tokens, ¬ token.isPrintName) :
    tokens.map asKeyword = tokens := by
  have hkeep : tokens.map asKeyword = tokens.map id :=
    List.map_congr_left fun token ht => if_neg (h token ht)
  rw [hkeep, List.map_id]

end Token

theorem Lexed.toEarley {source rest : List Char} {tokens : List Token} {mark : Mark}
    (h : Lexed .lalr source tokens mark rest) :
    Lexed .earley source (tokens.map Token.asKeyword) mark rest := by
  induction h with
  | start => exact .start
  | skip _ hpiece hlongest ih => exact ih.skip hpiece hlongest
  | @token tokens mark piece rest kind _ hpiece hlongest hprint ih =>
    rw [List.map_append, List.map_singleton, Token.asKeyword]
    split
    · rename_i hname
      have hword : piece = "print".toList := by
        rw [← (Token.isPrintName_iff.1 hname).2, String.toList_ofList]
      have hkeyword : piece ∈ Terminal.print.language := hword
      exact ih.token hkeyword hlongest (iff_of_true rfl ⟨hword, .inl rfl⟩)
    · rename_i hname
      refine ih.token hpiece hlongest ⟨fun hk => ⟨(hprint.1 hk).1, .inl rfl⟩, ?_⟩
      rintro ⟨rfl, -⟩
      refine (Lexeme.kind_of_print hpiece).resolve_right ?_
      rintro rfl
      exact hname rfl

/-- The engines find the same tokens but for the names `print`, and stop at the same character. -/
theorem Scan.ofText_earley (source : String) :
    ofText .earley source =
      ⟨(ofText .lalr source).tokens.map Token.asKeyword, (ofText .lalr source).stuck⟩ := by
  obtain ⟨mark, rest, hlexed, hend, hstuck⟩ := exists_lexed .lalr source
  rw [hstuck]
  exact hlexed.toEarley.ofChars_eq_of_end hend

/-! ## The keyword in programs -/

theorem Phase.eq_fresh_of_step? {phase next : Phase} {token : Token} (hk : token.kind = .print)
    (h : phase.step? token = some next) : phase = .fresh := by
  cases phase with
  | fresh => rfl
  | assigned | named | operand | operator =>
    simp [step?, takeOperand?, takeOperator?, Frame.join?, hk] at h

theorem Phase.ne_fresh_of_step? {phase next : Phase} {token : Token}
    (h : phase.step? token = some next) : next ≠ .fresh := by
  rintro rfl
  have hoperand {head : Head} {outer : List (Frame × Mark)} {frame : Frame} :
      takeOperand? head outer frame token ≠ some .fresh := by
    unfold takeOperand?
    split <;> simp
  have hoperator {head : Head} {outer : List (Frame × Mark)} {frame : Frame} {last : Operand} :
      takeOperator? head outer frame last token ≠ some .fresh := by
    unfold takeOperator?
    split <;> simp
  cases phase with
  | fresh | assigned | named =>
    rw [step?] at h
    split at h <;> simp_all
  | operand => exact hoperand h
  | operator => exact hoperator h

theorem Reading.exists_of_run_snoc {reading next : Reading} {tokens : List Token} {token : Token}
    (h : reading.run (tokens ++ [token]) = .ok next) :
    ∃ before, reading.run tokens = .ok before ∧ before.step? token = some next := by
  rw [run_append] at h
  cases hrun : reading.run tokens with
  | error found => simp [hrun] at h
  | ok before =>
    rw [hrun] at h
    cases hstep : before.step? token with
    | none => simp [run, hstep] at h
    | some after =>
      simp only [run, hstep] at h
      cases h
      exact ⟨before, rfl, hstep⟩

/-- Only a separator leaves the current statement empty. -/
theorem Reading.separator_of_step? {reading next : Reading} {token : Token}
    (h : reading.step? token = some next) (hfresh : next.phase = .fresh) :
    token.kind = .separator := by
  by_contra hk
  rw [step?] at h
  split at h
  · contradiction
  · obtain ⟨phase, hphase, rfl⟩ := Option.map_eq_some_iff.1 h
    exact Phase.ne_fresh_of_step? hphase hfresh

/-- The keyword starts a statement. -/
theorem Viable.expectsKeyword {before : List Token} {token : Token}
    (h : Viable (before ++ [token])) (hk : token.kind = .print) (engine : Engine) :
    engine.ExpectsKeyword before := by
  obtain ⟨next, hnext⟩ := Reading.viable_iff.1 h
  obtain ⟨reading, hreading, hstep⟩ := Reading.exists_of_run_snoc hnext
  have hfresh : reading.phase = .fresh := by
    simp only [Reading.step?, hk, Option.map_eq_some_iff] at hstep
    obtain ⟨phase, hphase, -⟩ := hstep
    exact Phase.eq_fresh_of_step? hk hphase
  obtain rfl | ⟨earlier, last, rfl⟩ := before.eq_nil_or_concat'
  · exact .inr (.inl rfl)
  · obtain ⟨_, _, hlast⟩ := Reading.exists_of_run_snoc hreading
    have hseparator := Reading.separator_of_step? hlast hfresh
    exact .inr (.inr ⟨last, by simp, hseparator⟩)

theorem Viable.of_append {before after : List Token} (h : Viable (before ++ after)) :
    Viable before := by
  obtain ⟨d, hd⟩ := h
  exact ⟨d, (List.prefix_append before after).trans hd⟩

/-- A name `print` taken for the keyword does not go on with any program. -/
theorem Lexed.not_viable_asKeyword {source rest : List Char} {before after : List Token}
    {token : Token} {mark : Mark}
    (h : Lexed .lalr source (before ++ token :: after) mark rest) (htoken : token.isPrintName) :
    ¬ Viable (before.map Token.asKeyword ++ [token.asKeyword]) := by
  intro hviable
  rw [Token.asKeyword_of_isPrintName htoken] at hviable
  have hexpects := (Engine.expectsKeyword_map Token.separator_asKeyword).1
    (hviable.expectsKeyword rfl .lalr)
  obtain ⟨hname, htext⟩ := Token.isPrintName_iff.1 htoken
  have hprint : token.kind = .print := h.token_text.2.2 ⟨htext, hexpects⟩
  rw [hname] at hprint
  cases hprint

/-- Tokens that still start a program with the keyword everywhere have no such name. -/
theorem Lexed.not_isPrintName {source rest : List Char} {tokens : List Token} {mark : Mark}
    (h : Lexed .lalr source tokens mark rest) (hviable : Viable (tokens.map Token.asKeyword)) :
    ∀ token ∈ tokens, ¬ token.isPrintName := by
  intro token ht hname
  obtain ⟨before, after, rfl⟩ := List.append_of_mem ht
  rw [List.map_append, List.map_cons, List.append_cons] at hviable
  exact h.not_viable_asKeyword hname hviable.of_append

/-- The second engine stops at the first such name that the first engine reads or stops at. -/
theorem parse_earley_of_isPrintName {source : String} {before after : List Token} {token : Token}
    (htokens : (Scan.ofText .lalr source).tokens = before ++ token :: after)
    (hviable : Viable before) (hbefore : ∀ t ∈ before, ¬ t.isPrintName)
    (htoken : token.isPrintName) :
    parse .earley source = .error (.unexpectedToken ⟨.print, "print", token.mark⟩) := by
  obtain ⟨mark, rest, hlexed, -⟩ := Scan.exists_lexed .lalr source
  rw [htokens] at hlexed
  have hstops := hlexed.not_viable_asKeyword htoken
  rw [Token.map_asKeyword hbefore, Token.asKeyword_of_isPrintName htoken] at hstops
  rw [parse, Scan.parse_eq_unexpectedToken, Reading.run_eq_error_iff, Scan.ofText_earley, htokens]
  refine ⟨before, after.map Token.asKeyword, ?_, hviable, hstops⟩
  rw [List.map_append, List.map_cons, Token.map_asKeyword hbefore,
    Token.asKeyword_of_isPrintName htoken]

/-! ## Names in trees -/

namespace Node

/-- Whether a node is the word `print` read as a name. -/
def isPrintName : Node → Bool
  | .token kind text _ => kind == Terminal.name.label && text == "print"
  | _ => false

/-- The nodes of some trees that are the word `print` read as a name, in reading order. -/
def printNamesOf (depth : Int) (trees : List Node) : List Node :=
  ((preorders depth trees).map Prod.snd).filter isPrintName

/-- The nodes of a tree that are the word `print` read as a name, in reading order. -/
def printNames (tree : Node) : List Node := (tree.nodes.map Prod.snd).filter isPrintName

theorem preorders_append (depth : Int) (xs ys : List Node) :
    preorders depth (xs ++ ys) = preorders depth xs ++ preorders depth ys := by
  induction xs with
  | nil => rfl
  | cons x xs ih => rw [List.cons_append, preorders, preorders, ih, List.append_assoc]

theorem printNames_eq (tree : Node) : tree.printNames = printNamesOf 0 [tree] := by
  rw [printNames, nodes_eq, printNamesOf, preorders, preorders, List.append_nil]

theorem printNamesOf_append (depth : Int) (xs ys : List Node) :
    printNamesOf depth (xs ++ ys) = printNamesOf depth xs ++ printNamesOf depth ys := by
  rw [printNamesOf, preorders_append, List.map_append, List.filter_append]
  rfl

theorem printNamesOf_rule (depth : Int) (label : String) (children : List Node)
    (position : Option Position) :
    printNamesOf depth [.rule label children position] = printNamesOf (depth + 1) children := by
  simp [printNamesOf, preorders, preorder, isPrintName]

theorem printNamesOf_leaf (depth : Int) (token : Token) :
    printNamesOf depth [token.leaf] = ([token].filter Token.isPrintName).map Token.leaf := by
  have hleaf : token.leaf.isPrintName = token.isPrintName := by
    cases hk : token.kind <;> simp [Token.leaf, Token.isPrintName, isPrintName, hk, Terminal.label]
  show [token.leaf].filter isPrintName = _
  by_cases hname : token.isPrintName
  · rw [List.filter_cons_of_pos (hleaf.trans hname), List.filter_cons_of_pos hname]
    rfl
  · rw [List.filter_cons_of_neg (hleaf ▸ hname), List.filter_cons_of_neg hname]
    rfl

end Node

theorem Part.nodes_wrap (n : Nonterminal) (label : Option String) (inner : Part) :
    (wrap n label inner).nodes = inner.nodes ∨
      ∃ name, (wrap n label inner).nodes = [.rule name inner.nodes inner.start] := by
  unfold wrap
  split
  · exact .inl rfl
  · exact .inl rfl
  · exact .inr ⟨_, rfl⟩

/-- The names `print` of a tree are those of its tokens. -/
theorem Derivation.printNamesOf_part {p : Pattern} (d : Derivation p) (depth : Int) :
    Node.printNamesOf depth d.part.nodes = (d.tokens.filter Token.isPrintName).map Token.leaf := by
  induction d generalizing depth with
  | terminal token h =>
    rw [part, tokens, Part.ofToken]
    by_cases hkept : token.kind.isKept
    · rw [if_pos hkept, Node.printNamesOf_leaf]
    · rw [if_neg hkept, List.filter_cons_of_neg]
      · rfl
      · intro hname
        rw [(Token.isPrintName_iff.1 hname).1] at hkept
        exact hkept rfl
  | @rule n production h inner ih =>
    rw [part, tokens]
    obtain hnodes | ⟨name, hnodes⟩ := Part.nodes_wrap n production.label inner.part
    · rw [hnodes, ih]
    · rw [hnodes, Node.printNamesOf_rule, ih]
  | seq first second ihf ihs | more first second ihf ihs =>
    show Node.printNamesOf depth (first.part.nodes ++ second.part.nodes) = _
    rw [Node.printNamesOf_append, ihf, ihs, tokens, List.filter_append, List.map_append]
  | left d ih | right d ih | present d ih => exact ih depth
  | absent | stop => rfl

/-! ## Agreement -/

section

variable {source : String}

theorem printNames_of_parse {engine : Engine} {tree : Node}
    (h : parse engine source = .ok tree) :
    Viable (Scan.ofText engine source).tokens ∧ tree.printNames =
      ((Scan.ofText engine source).tokens.filter Token.isPrintName).map Token.leaf := by
  obtain ⟨tokens, mark, hlexed, d, rfl, hnodes⟩ := parse_eq_ok_iff.1 h
  rw [hlexed.ofText_eq, Node.printNames_eq, ← hnodes]
  exact ⟨⟨d, List.prefix_rfl⟩, d.printNamesOf_part 0⟩

/-- Without names `print` both engines scan a text alike. -/
theorem Scan.ofText_earley_eq
    (h : ∀ token ∈ (ofText .lalr source).tokens, ¬ token.isPrintName) :
    ofText .earley source = ofText .lalr source := by
  rw [ofText_earley, Token.map_asKeyword h]

theorem Scan.not_isPrintName (h : Viable (ofText .earley source).tokens) :
    ∀ token ∈ (ofText .lalr source).tokens, ¬ token.isPrintName := by
  obtain ⟨mark, rest, hlexed, -⟩ := exists_lexed .lalr source
  rw [ofText_earley] at h
  exact hlexed.not_isPrintName h

/-! Where the first engine has read no name `print`, the second stops at the same place. -/

section

variable (hread : ∀ read, read <+: (Scan.ofText .lalr source).tokens → Viable read →
  ∀ t ∈ read, ¬ t.isPrintName)

include hread

theorem parse_earley_eq_unexpectedToken {token : Token}
    (h : parse .lalr source = .error (.unexpectedToken token)) :
    ∃ kind, parse .earley source = .error (.unexpectedToken { token with kind }) := by
  rw [parse, Scan.parse_eq_unexpectedToken, Reading.run_eq_error_iff] at h
  obtain ⟨before, after, htokens, hviable, hstops⟩ := h
  have hbefore := hread before ⟨_, htokens.symm⟩ hviable
  by_cases htoken : token.isPrintName
  · refine ⟨.print, ?_⟩
    rw [parse_earley_of_isPrintName htokens hviable hbefore htoken,
      (Token.isPrintName_iff.1 htoken).2]
  · refine ⟨token.kind, ?_⟩
    rw [parse, Scan.parse_eq_unexpectedToken, Reading.run_eq_error_iff, Scan.ofText_earley, htokens]
    refine ⟨before, after.map Token.asKeyword, ?_, hviable, hstops⟩
    rw [List.map_append, List.map_cons, Token.map_asKeyword hbefore, Token.asKeyword,
      if_neg htoken]

theorem parse_earley_eq_unexpectedCharacter {c : Char} {mark : Mark}
    (h : parse .lalr source = .error (.unexpectedCharacter c mark)) :
    parse .earley source = .error (.unexpectedCharacter c mark) := by
  rw [parse, Scan.parse_eq_unexpectedCharacter] at h
  have hclean := hread _ List.prefix_rfl h.2
  rwa [parse, Scan.ofText_earley_eq hclean, Scan.parse_eq_unexpectedCharacter]

theorem parse_earley_eq_unexpectedEnd {place : Option Mark}
    (h : parse .lalr source = .error (.unexpectedEnd place)) :
    parse .earley source = .error (.unexpectedEnd none) ∧
      ∃ last, (Scan.ofText .lalr source).tokens.getLast? = some last ∧
        place = some last.mark := by
  obtain ⟨tokens, last, mark, hlexed, hviable, hderivable, hplace⟩ :=
    parse_eq_unexpectedEnd_iff.1 h
  have hscan := hlexed.ofText_eq
  rw [hscan] at hread ⊢
  have hclean := hread _ List.prefix_rfl hviable
  constructor
  · rw [parse, Scan.ofText_earley_eq (by rwa [hscan]), hscan, Scan.parse_eq_unexpectedEnd]
    exact ⟨rfl, hviable, hderivable, rfl⟩
  · refine ⟨last, List.getLast?_concat, ?_⟩
    obtain ⟨-, hplace⟩ | ⟨hengine, -⟩ := hplace
    · exact hplace
    · cases hengine

end

end

/-- A tree of the second engine is the tree of the first.  A tree of the first engine is the tree of
the second as long as the word `print` is no name in it, and else the second stops at the first such
name.  Where the first engine stops before it has read such a name, the second stops there too; only
for an early end the first gives the last token and the second gives no place. -/
theorem engines_agree (source : String) :
    (∀ tree, parse .earley source = .ok tree → parse .lalr source = .ok tree) ∧
    (∀ tree, parse .lalr source = .ok tree → tree.printNames = [] →
      parse .earley source = .ok tree) ∧
    (∀ tree first others, parse .lalr source = .ok tree → tree.printNames = first :: others →
      ∃ mark fault, first = .token Terminal.name.label "print" (some mark.position) ∧
        parse .earley source = .error fault ∧ fault.mark? = some mark ∧
        fault.summary = "Unexpected token 'print'") ∧
    ∀ fault, parse .lalr source = .error fault →
      (∀ read, read <+: (Scan.ofText .lalr source).tokens → Viable read →
        ∀ t ∈ read, ¬ t.isPrintName) →
      ∃ other, parse .earley source = .error other ∧ other.summary = fault.summary ∧
        ((∀ place, fault ≠ .unexpectedEnd place) →
          other.mark? = fault.mark? ∧ other.message = fault.message) ∧
        ∀ place, fault = .unexpectedEnd place → other = .unexpectedEnd none ∧
          ∃ last, (Scan.ofText .lalr source).tokens.getLast? = some last ∧
            place = some last.mark := by
  refine ⟨?_, ?_, ?_, ?_⟩
  · intro tree htree
    have hclean := Scan.not_isPrintName (printNames_of_parse htree).1
    rw [parse, Scan.ofText_earley_eq hclean, Scan.parse_eq_ok] at htree
    rwa [parse, Scan.parse_eq_ok]
  · intro tree htree hnames
    rw [(printNames_of_parse htree).2, List.map_eq_nil_iff, List.filter_eq_nil_iff] at hnames
    rw [parse, Scan.parse_eq_ok] at htree
    rwa [parse, Scan.ofText_earley_eq hnames, Scan.parse_eq_ok]
  · intro tree first others htree hnames
    obtain ⟨hviable, hfilter⟩ := printNames_of_parse htree
    rw [hfilter, List.map_eq_cons_iff] at hnames
    obtain ⟨token, tokens, htokens, rfl, -⟩ := hnames
    obtain ⟨before, after, hall, hbefore, htoken, -⟩ := List.filter_eq_cons_iff.1 htokens
    rw [hall] at hviable
    obtain ⟨hkind, htext⟩ := Token.isPrintName_iff.1 htoken
    have hsummary : "Unexpected token " ++ quoted "print" = "Unexpected token 'print'" := by
      decide +kernel
    refine ⟨token.mark, _, ?_, parse_earley_of_isPrintName hall hviable.of_append hbefore htoken,
      rfl, hsummary⟩
    rw [Token.leaf, hkind, htext]
  · intro fault hfault hread
    cases fault with
    | unexpectedToken token =>
      obtain ⟨kind, hother⟩ := parse_earley_eq_unexpectedToken hread hfault
      exact ⟨_, hother, rfl, fun _ => ⟨rfl, rfl⟩, by simp⟩
    | unexpectedCharacter c mark =>
      have hother := parse_earley_eq_unexpectedCharacter hread hfault
      exact ⟨_, hother, rfl, fun _ => ⟨rfl, rfl⟩, by simp⟩
    | unexpectedEnd place =>
      obtain ⟨hother, hlast⟩ := parse_earley_eq_unexpectedEnd hread hfault
      refine ⟨_, hother, rfl, by simp, ?_⟩
      intro found hfound
      cases hfound
      exact ⟨rfl, hlast⟩

end Reckon
