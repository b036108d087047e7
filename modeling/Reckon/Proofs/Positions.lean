import Reckon.Proofs.Elements

/-!
# Positions in trees

Every derivation has elements that match its pattern and that leave the same part of a tree
(`Derivation.exists_elements`).  So the tree of a source is produced from the tokens of the source,
and its positions lead back into the text (`parse_wellPlaced`).
-/

namespace Reckon

/-! ## The elements of a derivation -/

namespace Pattern

/-- Whether no program stands inside a pattern. -/
def isInner : Pattern → Bool
  | .terminal _ => true
  | .rule n => n != .program
  | .seq p q | .either p q => p.isInner && q.isInner
  | .optional p | .many p => p.isInner

theorem isInner_of_mem {n : Nonterminal} {production : Production}
    (h : production ∈ n.productions) : production.pattern.isInner := by
  revert production
  cases n <;> decide

end Pattern

/-- Two nonterminals and an operator between them leave two nodes or more. -/
theorem Pattern.Matches.two_le_length {m k : Nonterminal} {op : Pattern} {elements : List Element}
    (h : (Pattern.seq (.rule m) (.seq op (.rule k))).Matches elements) :
    2 ≤ (elements.flatMap Element.nodes).length := by
  obtain _ | _ | ⟨⟨left, _⟩, _ | _ | ⟨_, ⟨right, _⟩⟩⟩ := h
  simp [Element.nodes]

/-- A phrase in parentheses is all that the production of a group matches. -/
theorem Pattern.Matches.exists_group {n : Nonterminal} {elements : List Element}
    (h : (Pattern.seq (.terminal .lparen) (.seq (.rule n) (.terminal .rparen))).Matches elements) :
    ∃ opening phrase closing, opening.kind = .lparen ∧ closing.kind = .rparen ∧
      elements = [.token opening, .phrase phrase, .token closing] := by
  cases h with
  | seq hopening hrest =>
    cases hopening with
    | terminal opening ho =>
      cases hrest with
      | seq hphrase hclosing =>
        cases hphrase with
        | rule phrase d hd =>
          cases hclosing with
          | terminal closing hc => exact ⟨opening, phrase, closing, ho, hc, rfl⟩

/-- A production passes on its only child, or it makes a node. -/
theorem Nonterminal.production_cases {n : Nonterminal} {production : Production}
    (h : production ∈ n.productions) :
    n.isInlined = true ∧ ((∃ m, production = ⟨.rule m, none⟩) ∨
      (∃ kind, kind.isOperand ∧ production = ⟨.terminal kind, none⟩) ∨
      production = ⟨.seq (.terminal .lparen) (.seq (.rule .expr) (.terminal .rparen)), none⟩) ∨
    ∀ elements, production.pattern.Matches elements → n.isInlined → production.label = none →
      (elements.flatMap Element.nodes).length ≠ 1 := by
  have hlabelled : ∀ {label : String} {pattern : Pattern} {elements : List Element},
      (⟨pattern, some label⟩ : Production).label = none →
        (elements.flatMap Element.nodes).length ≠ 1 := nofun
  cases n with
  | program | assign | print => exact .inr fun _ _ hinlined => by cases hinlined
  | stmt =>
    simp only [productions, List.mem_cons, List.not_mem_nil, or_false] at h
    obtain rfl | rfl | rfl := h <;> exact .inl ⟨rfl, .inl ⟨_, rfl⟩⟩
  | expr | unary =>
    simp only [productions, List.mem_cons, List.not_mem_nil, or_false] at h
    obtain rfl | rfl := h
    · exact .inl ⟨rfl, .inl ⟨_, rfl⟩⟩
    · exact .inr fun _ _ _ => hlabelled
  | add | mul | pow =>
    simp only [productions, List.mem_cons, List.not_mem_nil, or_false] at h
    obtain rfl | rfl := h
    · exact .inl ⟨rfl, .inl ⟨_, rfl⟩⟩
    · exact .inr fun _ hbinary _ _ => Nat.ne_of_gt hbinary.two_le_length
  | atom =>
    simp only [productions, List.mem_cons, List.not_mem_nil, or_false] at h
    obtain rfl | rfl | rfl | rfl := h
    case inr.inr.inr => exact .inl ⟨rfl, .inr (.inr rfl)⟩
    all_goals exact .inl ⟨rfl, .inr (.inl ⟨_, rfl, rfl⟩)⟩

namespace Derivation

variable {p q : Pattern}

/-- The elements of a derivation match its pattern, have its tokens and leave its part. -/
structure Consists (d : Derivation p) (elements : List Element) : Prop where
  fits : p.Matches elements
  tokens_eq : elements.flatMap Element.tokens = d.tokens
  nodes_eq : elements.flatMap Element.nodes = d.part.nodes
  start_eq : elements.head?.bind Element.start = d.part.start
  produced : ∀ phrase, .phrase phrase ∈ elements → phrase.node.Produced phrase.inner

end Derivation

/-! ## One phrase for a nonterminal -/

namespace Phrase

/-- A node produced from some tokens, without parentheses. -/
def bare (tokens : List Token) (node : Node) (h : tokens ≠ []) : Phrase where
  openings := []
  inner := tokens
  closings := []
  node := node
  inner_ne_nil := h
  opens := by simp
  closes := by simp
  balanced := rfl

/-- A phrase in one more pair of parentheses. -/
def enclose (phrase : Phrase) (opening closing : Token) (ho : opening.kind = .lparen)
    (hc : closing.kind = .rparen) : Phrase where
  openings := opening :: phrase.openings
  inner := phrase.inner
  closings := phrase.closings ++ [closing]
  node := phrase.node
  inner_ne_nil := phrase.inner_ne_nil
  opens := List.forall_mem_cons.2 ⟨ho, phrase.opens⟩
  closes := by
    rw [List.forall_mem_append]
    exact ⟨phrase.closes, by simpa using hc⟩
  balanced := by simp [phrase.balanced]

/-- The part of a tree that a phrase leaves. -/
def part (phrase : Phrase) : Part := ⟨[phrase.node], phrase.start⟩

theorem tokens_bare (tokens : List Token) (node : Node) (h : tokens ≠ []) :
    (bare tokens node h).tokens = tokens := by
  simp [Phrase.tokens, bare]

theorem start_enclose {phrase : Phrase} {opening closing : Token} {ho : opening.kind = .lparen}
    {hc : closing.kind = .rparen} (h : phrase.node.Produced phrase.inner)
    (hnot : ¬ phrase.node.isToken) :
    (phrase.enclose opening closing ho hc).start = some opening.mark.position := by
  obtain ⟨openings, inner, closings, node⟩ := phrase
  cases h with
  | leaf => exact absurd rfl hnot
  | rule => rfl

/-- An inlined nonterminal leaves a phrase.  The start of a token is the token's own. -/
theorem wrap_eq_part {n : Nonterminal} (hn : n.isInlined) {phrase : Phrase}
    (h : phrase.node.Produced phrase.inner) {start : Option Position}
    (hstart : ¬ phrase.node.isToken → phrase.start = start) :
    (⟨[phrase.node], start⟩ : Part).wrap n none = phrase.part := by
  obtain ⟨openings, inner, closings, node⟩ := phrase
  cases node with
  | rule label children position =>
    rw [← hstart (by simp [Node.isToken])]
    simp [Part.wrap, hn, part]
  | token kind text position => simp [Part.wrap, hn, part, Phrase.start, Node.ownPosition?]
  | foreign value => cases h

end Phrase

theorem Part.wrap_of_keeps {n : Nonterminal} {label : Option String} {inner : Part}
    (h : n.isInlined → label = none → inner.nodes.length ≠ 1) :
    inner.wrap n label = ⟨[.rule (label.getD n.label) inner.nodes inner.start], inner.start⟩ := by
  unfold wrap
  split
  case h_1 hinlined hnodes | h_2 hinlined hnodes =>
    exact absurd (congrArg List.length hnodes) (h hinlined rfl)
  case h_3 => rfl

namespace Derivation

variable {p q : Pattern} {n : Nonterminal}

theorem Consists.part_eq {d : Derivation p} {elements : List Element} (h : d.Consists elements) :
    d.part = ⟨elements.flatMap Element.nodes, elements.head?.bind Element.start⟩ :=
  Part.ext h.nodes_eq.symm h.start_eq.symm

theorem consists_phrase {d : Derivation (.rule n)} {phrase : Phrase}
    (htokens : phrase.tokens = d.tokens) (hpart : phrase.part = d.part)
    (h : phrase.node.Produced phrase.inner) : d.Consists [.phrase phrase] where
  fits := .rule phrase d htokens.symm
  tokens_eq := by rw [← htokens]; simp [Element.tokens]
  nodes_eq := by rw [← hpart]; rfl
  start_eq := by rw [← hpart]; rfl
  produced := by
    intro found hfound
    cases List.mem_singleton.1 hfound
    exact h

/-! The four kinds of productions, each of which leaves a phrase. -/

section

variable {elements : List Element}

/-- A nonterminal that is inlined into another leaves the same phrase. -/
theorem Consists.inlined {m : Nonterminal} (hn : n.isInlined)
    (h : ⟨.rule m, none⟩ ∈ n.productions) {inner : Derivation (.rule m)}
    (hinner : inner.Consists elements) :
    ∃ phrase, (Derivation.rule ⟨.rule m, none⟩ h inner).Consists [.phrase phrase] := by
  have hpart := hinner.part_eq
  have htokens := hinner.tokens_eq
  cases hinner.fits with
  | rule phrase d hd =>
    have hphrase := hinner.produced phrase (List.mem_singleton_self _)
    refine ⟨phrase, consists_phrase ?_ ?_ hphrase⟩
    · rw [tokens, ← htokens]
      simp [Element.tokens]
    · rw [part, hpart]
      exact (Phrase.wrap_eq_part hn hphrase fun _ => rfl).symm

theorem consists_operand {kind : Terminal} (hn : n.isInlined) (hk : kind.isOperand)
    (h : ⟨.terminal kind, none⟩ ∈ n.productions) (inner : Derivation (.terminal kind)) :
    ∃ phrase, (Derivation.rule ⟨.terminal kind, none⟩ h inner).Consists [.phrase phrase] := by
  cases inner with
  | terminal token hkind =>
    subst hkind
    have hphrase : (Phrase.bare [token] token.leaf (List.cons_ne_nil _ _)).node.Produced
        (Phrase.bare [token] token.leaf (List.cons_ne_nil _ _)).inner := .leaf token hk
    refine ⟨_, consists_phrase (Phrase.tokens_bare ..) ?_ hphrase⟩
    rw [part, part, Part.ofToken, if_pos (Terminal.isKept_of_isOperand hk)]
    exact (Phrase.wrap_eq_part hn hphrase fun hnot => absurd rfl hnot).symm

/-- A group leaves the phrase inside it, in one more pair of parentheses. -/
theorem Consists.group (hn : n.isInlined)
    (h : ⟨.seq (.terminal .lparen) (.seq (.rule .expr) (.terminal .rparen)), none⟩ ∈ n.productions)
    {inner : Derivation (.seq (.terminal .lparen) (.seq (.rule .expr) (.terminal .rparen)))}
    (hinner : inner.Consists elements) :
    ∃ phrase, (Derivation.rule ⟨_, none⟩ h inner).Consists [.phrase phrase] := by
  have hpart := hinner.part_eq
  have htokens := hinner.tokens_eq
  obtain ⟨opening, phrase, closing, ho, hc, rfl⟩ := hinner.fits.exists_group
  have hphrase : phrase.node.Produced phrase.inner := hinner.produced phrase (by simp)
  refine ⟨phrase.enclose opening closing ho hc, consists_phrase ?_ ?_ hphrase⟩
  · rw [tokens, ← htokens]
    simp [Element.tokens, Phrase.tokens, Phrase.enclose]
  · have hnodes : [Element.token opening, .phrase phrase, .token closing].flatMap Element.nodes =
        [phrase.node] := by
      simp [Element.nodes, ho, hc, Terminal.isKept]
    have hgroup : (phrase.enclose opening closing ho hc).node.Produced
        (phrase.enclose opening closing ho hc).inner := hphrase
    rw [part, hpart, hnodes]
    exact (Phrase.wrap_eq_part hn hgroup (Phrase.start_enclose hphrase)).symm

/-- A production that makes a node leaves it without parentheses. -/
theorem Consists.made {production : Production} (h : production ∈ n.productions)
    {inner : Derivation production.pattern} (hinner : inner.Consists elements)
    (hne : inner.tokens ≠ []) (hkeeps : n.isInlined → production.label = none →
      (elements.flatMap Element.nodes).length ≠ 1) :
    ∃ phrase, (Derivation.rule production h inner).Consists [.phrase phrase] := by
  have hphrase := Node.Produced.rule h hinner.fits hkeeps hinner.produced
  rw [hinner.tokens_eq] at hphrase
  refine ⟨.bare inner.tokens _ hne, consists_phrase (Phrase.tokens_bare ..) ?_ hphrase⟩
  rw [part, hinner.part_eq, Part.wrap_of_keeps hkeeps]
  rfl

/-- A nonterminal whose production has elements is a phrase. -/
theorem Consists.exists_phrase {production : Production} (h : production ∈ n.productions)
    (hn : n ≠ .program) {inner : Derivation production.pattern} (hinner : inner.Consists elements) :
    ∃ phrase, (Derivation.rule production h inner).Consists [.phrase phrase] := by
  -- only the last kind makes a node; the others pass on a phrase, and a group its parentheses too
  obtain ⟨hinlined, ⟨m, rfl⟩ | ⟨kind, hk, rfl⟩ | rfl⟩ | hkeeps := Nonterminal.production_cases h
  · exact hinner.inlined hinlined h
  · exact consists_operand hinlined hk h inner
  · exact hinner.group hinlined h
  · exact hinner.made h (inner.tokens_ne_nil (Pattern.not_isNullable_of_mem hn h))
      (hkeeps elements hinner.fits)

end

theorem Consists.marked {d : Derivation p} {elements : List Element} (h : d.Consists elements) :
    ∀ element ∈ elements, element.Marked := Node.Produced.marked h.produced

/-- The first of two rows of elements decides where both start, unless it is empty. -/
theorem start_append {xs ys : List Element} (h : ∀ element ∈ xs, element.Marked) :
    (xs ++ ys).head?.bind Element.start =
      (xs.head?.bind Element.start).or (ys.head?.bind Element.start) := by
  match xs with
  | [] => rfl
  | first :: rest =>
    obtain ⟨token, -, hstart⟩ := (h first List.mem_cons_self).start
    simp [hstart]

theorem Consists.seq {d : Derivation p} {e : Derivation q} {xs ys : List Element}
    (hd : d.Consists xs) (he : e.Consists ys) :
    (Derivation.seq d e).Consists (xs ++ ys) where
  fits := .seq hd.fits he.fits
  tokens_eq := by rw [List.flatMap_append, hd.tokens_eq, he.tokens_eq, tokens]
  nodes_eq := by rw [List.flatMap_append, hd.nodes_eq, he.nodes_eq]; rfl
  start_eq := by rw [start_append hd.marked, hd.start_eq, he.start_eq]; rfl
  produced phrase hphrase :=
    (List.mem_append.1 hphrase).elim (hd.produced phrase) (he.produced phrase)

/-- Every derivation that no program stands in has elements. -/
theorem exists_elements (d : Derivation p) (hp : p.isInner) : ∃ elements, d.Consists elements := by
  induction d with
  | terminal token h =>
    refine ⟨[.token token], .terminal token h, rfl, ?_, rfl, by simp⟩
    simp [Element.nodes, part, Part.ofToken]
  | @rule n production h inner ih =>
    obtain ⟨elements, hinner⟩ := ih (Pattern.isInner_of_mem h)
    obtain ⟨phrase, hphrase⟩ := hinner.exists_phrase h (by simpa [Pattern.isInner] using hp)
    exact ⟨_, hphrase⟩
  | seq first second ihf ihs =>
    rw [Pattern.isInner, Bool.and_eq_true] at hp
    obtain ⟨xs, hxs⟩ := ihf hp.1
    obtain ⟨ys, hys⟩ := ihs hp.2
    exact ⟨xs ++ ys, hxs.seq hys⟩
  | left d ih =>
    rw [Pattern.isInner, Bool.and_eq_true] at hp
    obtain ⟨xs, hxs⟩ := ih hp.1
    exact ⟨xs, .left hxs.fits, hxs.tokens_eq, hxs.nodes_eq, hxs.start_eq, hxs.produced⟩
  | right d ih =>
    rw [Pattern.isInner, Bool.and_eq_true] at hp
    obtain ⟨xs, hxs⟩ := ih hp.2
    exact ⟨xs, .right hxs.fits, hxs.tokens_eq, hxs.nodes_eq, hxs.start_eq, hxs.produced⟩
  | absent => exact ⟨[], .absent, rfl, rfl, rfl, by simp⟩
  | present d ih =>
    obtain ⟨xs, hxs⟩ := ih hp
    exact ⟨xs, .present hxs.fits, hxs.tokens_eq, hxs.nodes_eq, hxs.start_eq, hxs.produced⟩
  | stop => exact ⟨[], .stop, rfl, rfl, rfl, by simp⟩
  | more first rest ihf ihr =>
    obtain ⟨xs, hxs⟩ := ihf hp
    obtain ⟨ys, hys⟩ := ihr hp
    have hpair := hxs.seq hys
    exact ⟨xs ++ ys, .more hxs.fits hys.fits, hpair.tokens_eq, hpair.nodes_eq,
      hpair.start_eq, hpair.produced⟩

/-- The tree of a program is produced from the tokens of the program. -/
theorem produced (d : Derivation (.rule .program)) {tree : Node} (hd : d.part.nodes = [tree]) :
    tree.Produced d.tokens := by
  cases d with
  | rule production h inner =>
    obtain ⟨elements, hinner⟩ := inner.exists_elements (Pattern.isInner_of_mem h)
    have hkeeps : Nonterminal.program.isInlined → production.label = none →
        (elements.flatMap Element.nodes).length ≠ 1 := nofun
    rw [part, hinner.part_eq, Part.wrap_of_keeps hkeeps, List.cons.injEq] at hd
    rw [← hd.1, tokens, ← hinner.tokens_eq]
    exact .rule h hinner.fits hkeeps hinner.produced

end Derivation

/-! ## The positions of a parsed tree -/

/-- A tree whose positions are faithful to a source with some tokens. -/
structure Node.WellPlaced (tree : Node) (source : List Char) (tokens : List Token) : Prop where
  /-- The text of each leaf stands in the source at its line and column. -/
  leaf_text : ∀ kind text position, .token kind text position ∈ tree.all →
    ∃ mark : Mark, position = some mark.position ∧ text.toList <+: mark.textFrom source
  /-- From leaf to leaf the positions go forward. -/
  leaves_ascend : (tree.all.filter Node.isToken).Pairwise Node.Precedes
  /-- Each rule node has the position of the first element of its production. -/
  produced : tree.Produced tokens
  /-- No node comes after one below it. -/
  not_precedes : ∀ outer ∈ tree.all, ∀ inner ∈ outer.all, ¬ inner.Precedes outer
  /-- Only a program without a token has no position. -/
  position_eq_none : ∀ node ∈ tree.all, node.ownPosition? = none ↔ node = tree ∧ tokens = []

/-- The positions in the tree of a source that parses are faithful to the source. -/
theorem parse_wellPlaced {engine : Engine} {source : String} {tree : Node}
    (h : parse engine source = .ok tree) :
    tree.WellPlaced source.toList (Scan.ofText engine source).tokens := by
  obtain ⟨tokens, mark, hlexed, d, rfl, hd⟩ := parse_eq_ok_iff.1 h
  rw [hlexed.ofText_eq]
  have hproduced := d.produced hd
  have horder := hlexed.pairwise_before.1
  refine ⟨?_, ?_, hproduced, hproduced.not_precedes horder,
    fun node hnode => hproduced.ownPosition?_eq_none_iff hnode⟩
  · intro kind text position hleaf
    obtain ⟨t, ht, heq⟩ := hproduced.exists_token hleaf
    cases heq
    exact ⟨t.mark, rfl, hlexed.text_prefix ht⟩
  · rw [hproduced.filter_isToken, List.pairwise_map]
    refine (horder.sublist List.filter_sublist).imp ?_
    exact fun hbefore => ⟨_, rfl, _, rfl, hbefore⟩

/-- A product that counts from the parentheses around its sum, and a power that does not count from
those around its base. -/
def groupedOperands : Node :=
  .rule Rule.program.label
    [.rule Rule.mul.label
      [.rule Rule.add.label
        [.token Terminal.number.label "1" (some ⟨2, some 3⟩),
          .token Terminal.plus.label "+" (some ⟨2, some 4⟩),
          .token Terminal.number.label "2" (some ⟨2, some 5⟩)] (some ⟨2, some 3⟩),
        .token Terminal.star.label "*" (some ⟨2, some 8⟩),
        .token Terminal.name.label "x" (some ⟨2, some 9⟩)] (some ⟨2, some 1⟩),
      .rule Rule.print.label
        [.rule Rule.pow.label
          [.token Terminal.name.label "y" (some ⟨3, some 8⟩),
            .token Terminal.caret.label "^" (some ⟨3, some 10⟩),
            .token Terminal.name.label "z" (some ⟨3, some 11⟩)] (some ⟨3, some 8⟩)]
        (some ⟨3, some 1⟩)]
    (some ⟨1, some 1⟩)

theorem wellPlaced_groupedOperands :
    parse .lalr "\n((1+2))*x\nprint (y)^z" = .ok groupedOperands ∧
      groupedOperands.WellPlaced "\n((1+2))*x\nprint (y)^z".toList
        (Scan.ofText .lalr "\n((1+2))*x\nprint (y)^z").tokens := by
  have hparse : parse .lalr "\n((1+2))*x\nprint (y)^z" = .ok groupedOperands := by cbv
  exact ⟨hparse, parse_wellPlaced hparse⟩

end Reckon
