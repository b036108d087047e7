import Reckon.Proofs.Marks
import Reckon.Proofs.Origin
import Reckon.Proofs.Outlines

/-!
# The elements of productions

The position of a rule node is that of the first element of its production.  An element is a token
of the production, kept in the tree or not, or a phrase in the place of a nonterminal: a node, with
parentheses around it that leave no node of their own.  Parentheses around a rule node count for
the position of the node that holds it, from the outermost on, and parentheses around a token do
not.  `Node.Produced node tokens` says this of every rule node of a tree.

It follows that the leaves of a tree are its kept tokens (`Node.Produced.filter_isToken`), that each
node has the mark of a token (`Node.Produced.isMarkOf`), and that no node is before one above it
(`Node.Produced.not_precedes`).
-/

namespace Reckon

/-! ## Productions and what they leave -/

/-- A node and the tokens it is written with: those it is produced from, in as many opening as
closing parentheses. -/
structure Phrase where
  openings : List Token
  inner : List Token
  closings : List Token
  node : Node
  inner_ne_nil : inner ≠ []
  opens : ∀ token ∈ openings, token.kind = .lparen
  closes : ∀ token ∈ closings, token.kind = .rparen
  balanced : openings.length = closings.length

namespace Phrase

/-- The tokens of a phrase. -/
def tokens (phrase : Phrase) : List Token := phrase.openings ++ phrase.inner ++ phrase.closings

/-- Where a production starts that starts with a phrase: at the outermost parenthesis around a rule
node, and at the node itself if there is none or if it is a token. -/
def start (phrase : Phrase) : Option Position :=
  match phrase.node, phrase.openings with
  | .rule .., opening :: _ => some opening.mark.position
  | node, _ => node.ownPosition?

end Phrase

/-- An element of a production. -/
inductive Element where
  | token (token : Token)
  | phrase (phrase : Phrase)

namespace Element

/-- The tokens of an element. -/
def tokens : Element → List Token
  | .token t => [t]
  | .phrase p => p.tokens

/-- The nodes that an element leaves. -/
def nodes : Element → List Node
  | .token t => if t.kind.isKept then [t.leaf] else []
  | .phrase p => [p.node]

/-- The position of an element. -/
def start : Element → Option Position
  | .token t => some t.mark.position
  | .phrase p => p.start

end Element

/-- Elements, one behind the other, that match a pattern.  A phrase stands for a nonterminal that
its tokens can be derived from. -/
inductive Pattern.Matches : Pattern → List Element → Prop
  | terminal {kind : Terminal} (token : Token) (h : token.kind = kind) :
      Matches (.terminal kind) [.token token]
  | rule {n : Nonterminal} (phrase : Phrase) (d : Derivation (.rule n))
      (h : d.tokens = phrase.tokens) : Matches (.rule n) [.phrase phrase]
  | seq {p q : Pattern} {xs ys : List Element} (first : Matches p xs) (second : Matches q ys) :
      Matches (.seq p q) (xs ++ ys)
  | left {p q : Pattern} {xs : List Element} (h : Matches p xs) : Matches (.either p q) xs
  | right {p q : Pattern} {xs : List Element} (h : Matches q xs) : Matches (.either p q) xs
  | absent {p : Pattern} : Matches (.optional p) []
  | present {p : Pattern} {xs : List Element} (h : Matches p xs) : Matches (.optional p) xs
  | stop {p : Pattern} : Matches (.many p) []
  | more {p : Pattern} {xs ys : List Element} (first : Matches p xs) (rest : Matches (.many p) ys) :
      Matches (.many p) (xs ++ ys)

/-- A node produced from tokens: an operand from its own, and a rule node from those of elements
that match a production.  The production is one that makes a node, and the node has its label.  The
children are the nodes that the elements leave, and the position is that of the first element. -/
inductive Node.Produced : Node → List Token → Prop
  | leaf (token : Token) (h : token.kind.isOperand) : Produced token.leaf [token]
  | rule {n : Nonterminal} {production : Production} {elements : List Element}
      (h : production ∈ n.productions) (fits : production.pattern.Matches elements)
      (keeps : n.isInlined → production.label = none →
        (elements.flatMap Element.nodes).length ≠ 1)
      (phrases : ∀ phrase, .phrase phrase ∈ elements → Produced phrase.node phrase.inner) :
      Produced
        (.rule (production.label.getD n.label) (elements.flatMap Element.nodes)
          (elements.head?.bind Element.start))
        (elements.flatMap Element.tokens)

/-! ## All nodes of a tree -/

namespace Node

/-- A node and all nodes below it, in reading order. -/
def all (node : Node) : List Node := node.nodes.map Prod.snd

/-- Whether both nodes have a position and that of the first is before that of the second. -/
def Precedes (a b : Node) : Prop := ∃ p ∈ a.ownPosition?, ∃ q ∈ b.ownPosition?, p.Before q

mutual

theorem map_snd_preorder (depth : Int) : (node : Node) →
    (node.preorder depth).map Prod.snd = node.all
  | .rule label children position => by
    rw [all, nodes_eq, preorder, preorder, List.map_cons, List.map_cons,
      map_snd_preorders (depth + 1) children, map_snd_preorders (0 + 1) children]
  | .token .. => rfl
  | .foreign _ => rfl

theorem map_snd_preorders (depth : Int) : (nodes : List Node) →
    (preorders depth nodes).map Prod.snd = nodes.flatMap all
  | [] => rfl
  | node :: rest => by
    rw [preorders, List.map_append, map_snd_preorder depth node, map_snd_preorders depth rest,
      List.flatMap_cons]

end

theorem all_rule (label : String) (children : List Node) (position : Option Position) :
    (Node.rule label children position).all =
      .rule label children position :: children.flatMap all := by
  rw [all, nodes_eq, preorder, List.map_cons, map_snd_preorders]

theorem mem_all_self (node : Node) : node ∈ node.all := by
  rw [all, nodes_eq]
  exact List.mem_map_of_mem (mem_preorder_self 0 node)

theorem all_leaf (token : Token) : token.leaf.all = [token.leaf] := rfl

end Node

/-! ## The positions of a production -/

/-- Whether a position is the mark of one of some tokens. -/
def IsMarkOf (tokens : List Token) (position : Option Position) : Prop :=
  ∃ token ∈ tokens, position = some token.mark.position

/-- Tokens whose marks go forward. -/
def Ascending (tokens : List Token) : Prop :=
  tokens.Pairwise fun a b => a.mark.position.Before b.mark.position

namespace IsMarkOf

variable {ts us : List Token} {p q : Option Position}

theorem mono (h : IsMarkOf ts p) (hsub : ts ⊆ us) : IsMarkOf us p := by
  obtain ⟨token, ht, hp⟩ := h
  exact ⟨token, hsub ht, hp⟩

theorem ne_none (h : IsMarkOf ts p) : p ≠ none := by
  obtain ⟨token, -, rfl⟩ := h
  nofun

/-- No token is before those in front of it. -/
theorem not_before (hp : IsMarkOf ts p) (hq : IsMarkOf us q) (horder : Ascending (ts ++ us))
    {a b : Position} (ha : a ∈ p) (hb : b ∈ q) : ¬ b.Before a := by
  obtain ⟨t, ht, rfl⟩ := hp
  obtain ⟨u, hu, rfl⟩ := hq
  cases ha
  cases hb
  exact Mark.not_before_of_before ((List.pairwise_append.1 horder).2.2 t ht u hu)

theorem not_before_self (h : IsMarkOf ts p) {a b : Position} (ha : a ∈ p) (hb : b ∈ p) :
    ¬ b.Before a := by
  obtain ⟨token, -, rfl⟩ := h
  cases ha
  cases hb
  exact Mark.not_before_self token.mark

end IsMarkOf

namespace Phrase

variable {phrase : Phrase}

theorem inner_subset (phrase : Phrase) : phrase.inner ⊆ phrase.tokens := by
  simp [tokens]

theorem filter_isKept (phrase : Phrase) :
    phrase.tokens.filter (fun t => t.kind.isKept) =
      phrase.inner.filter (fun t => t.kind.isKept) := by
  have hopens : phrase.openings.filter (fun t => t.kind.isKept) = [] :=
    List.filter_eq_nil_iff.2 fun t ht => by simp [phrase.opens t ht, Terminal.isKept]
  have hcloses : phrase.closings.filter (fun t => t.kind.isKept) = [] :=
    List.filter_eq_nil_iff.2 fun t ht => by simp [phrase.closes t ht, Terminal.isKept]
  rw [tokens, List.filter_append, List.filter_append, hopens, hcloses, List.nil_append,
    List.append_nil]

theorem start_cases (phrase : Phrase) :
    phrase.start = phrase.node.ownPosition? ∨
      ∃ opening others, phrase.openings = opening :: others ∧
        phrase.start = some opening.mark.position := by
  unfold start
  split
  case h_1 opening others _ hopenings => exact .inr ⟨opening, others, hopenings, rfl⟩
  case h_2 => exact .inl rfl

theorem start_isMarkOf (h : IsMarkOf phrase.inner phrase.node.ownPosition?) :
    IsMarkOf phrase.tokens phrase.start := by
  obtain hstart | ⟨opening, others, hopenings, hstart⟩ := phrase.start_cases
  · rw [hstart]
    exact h.mono phrase.inner_subset
  · exact ⟨opening, by simp [tokens, hopenings], hstart⟩

end Phrase

namespace Element

theorem tokens_ne_nil (element : Element) : element.tokens ≠ [] := by
  cases element with
  | token t => exact List.cons_ne_nil t []
  | phrase p => simp [tokens, Phrase.tokens, p.inner_ne_nil]

/-- The nodes that an element leaves, and all below them. -/
theorem mem_all_cases {element : Element} {node : Node}
    (h : node ∈ element.nodes.flatMap Node.all) :
    (∃ t, element = .token t ∧ node = t.leaf) ∨ ∃ p, element = .phrase p ∧ node ∈ p.node.all := by
  cases element with
  | token t =>
    rw [nodes] at h
    split_ifs at h
    · exact .inl ⟨t, rfl, by simpa [Node.all_leaf] using h⟩
    · cases h
  | phrase p => exact .inr ⟨p, rfl, by simpa [nodes] using h⟩

/-- Whether the nodes of the phrase that an element is, if it is one, have marks of its tokens. -/
def Marked (element : Element) : Prop :=
  ∀ p, element = .phrase p → ∀ node ∈ p.node.all, IsMarkOf p.inner node.ownPosition?

variable {element : Element}

theorem Marked.start (h : element.Marked) : IsMarkOf element.tokens element.start := by
  cases element with
  | token t => exact ⟨t, List.mem_singleton_self t, rfl⟩
  | phrase p => exact Phrase.start_isMarkOf (h p rfl p.node p.node.mem_all_self)

theorem Marked.nodes (h : element.Marked) {node : Node}
    (hnode : node ∈ element.nodes.flatMap Node.all) :
    IsMarkOf element.tokens node.ownPosition? := by
  obtain ⟨t, rfl, rfl⟩ | ⟨p, rfl, hp⟩ := mem_all_cases hnode
  · exact ⟨t, List.mem_singleton_self t, rfl⟩
  · exact (h p rfl node hp).mono p.inner_subset

/-- No node below an element is before the start of the element. -/
theorem Marked.not_before_start (h : element.Marked) (horder : Ascending element.tokens)
    (hphrase : ∀ p, element = .phrase p → ∀ node ∈ p.node.all, ¬ node.Precedes p.node)
    {node : Node} (hnode : node ∈ element.nodes.flatMap Node.all) {a b : Position}
    (ha : a ∈ element.start) (hb : b ∈ node.ownPosition?) : ¬ b.Before a := by
  obtain ⟨t, rfl, rfl⟩ | ⟨p, rfl, hp⟩ := mem_all_cases hnode
  · exact IsMarkOf.not_before_self h.start ha hb
  · obtain hstart | ⟨opening, others, hopenings, hstart⟩ := p.start_cases
    · intro hbefore
      exact hphrase p rfl node hp ⟨b, hb, a, hstart ▸ ha, hbefore⟩
    · have hopening : IsMarkOf [opening] p.start := ⟨opening, List.mem_singleton_self _, hstart⟩
      have hinner := h p rfl node hp
      refine hopening.not_before hinner ?_ ha hb
      refine List.Pairwise.sublist ?_ horder
      simp [tokens, Phrase.tokens, hopenings]

theorem tokens_subset {elements : List Element} (h : element ∈ elements) :
    element.tokens ⊆ elements.flatMap tokens := by
  intro token ht
  exact List.mem_flatMap.2 ⟨element, h, ht⟩

end Element

theorem Node.mem_all_rule {label : String} {elements : List Element} {position : Option Position}
    {node : Node} :
    node ∈ (Node.rule label (elements.flatMap Element.nodes) position).all ↔
      node = .rule label (elements.flatMap Element.nodes) position ∨
        ∃ element ∈ elements, node ∈ element.nodes.flatMap Node.all := by
  rw [all_rule, List.flatMap_assoc, List.mem_cons, List.mem_flatMap]

/-! ## The positions of a tree -/

namespace Node.Produced

variable {tokens : List Token} {node : Node}

/-- Every node of a tree has the mark of one of the tokens it is produced from. -/
theorem isMarkOf (h : node.Produced tokens) (hne : tokens ≠ []) :
    ∀ inner ∈ node.all, IsMarkOf tokens inner.ownPosition? := by
  induction h with
  | leaf token _ =>
    intro inner hinner
    rw [List.mem_singleton.1 hinner]
    exact ⟨token, List.mem_singleton_self token, rfl⟩
  | @rule n production elements _ _ _ _ ih =>
    have hmarked : ∀ element ∈ elements, element.Marked := by
      rintro _ helement p rfl
      exact ih p helement p.inner_ne_nil
    intro inner hinner
    obtain rfl | ⟨element, helement, hbelow⟩ := mem_all_rule.1 hinner
    · match elements with
      | [] => exact absurd rfl hne
      | first :: rest =>
        have hstart := (hmarked first List.mem_cons_self).start
        exact hstart.mono (Element.tokens_subset List.mem_cons_self)
    · exact ((hmarked element helement).nodes hbelow).mono (Element.tokens_subset helement)

theorem marked {elements : List Element}
    (h : ∀ phrase, .phrase phrase ∈ elements → phrase.node.Produced phrase.inner) :
    ∀ element ∈ elements, element.Marked := by
  rintro _ helement p rfl
  exact (h p helement).isMarkOf p.inner_ne_nil

theorem not_precedes_leaf (token : Token) :
    ∀ inner ∈ token.leaf.all, ¬ inner.Precedes token.leaf := by
  rintro inner hinner ⟨b, hb, a, ha, hbefore⟩
  rw [List.mem_singleton.1 hinner] at hb
  cases ha
  cases hb
  exact Mark.not_before_self token.mark hbefore

/-- Nothing below a rule node is before the first element of its production. -/
theorem not_precedes_rule {elements : List Element} (label : String)
    (hmarked : ∀ element ∈ elements, element.Marked)
    (horder : Ascending (elements.flatMap Element.tokens))
    (hphrases : ∀ p, .phrase p ∈ elements → ∀ inner ∈ p.node.all, ¬ inner.Precedes p.node)
    {node : Node} (hnode : node = .rule label (elements.flatMap Element.nodes)
      (elements.head?.bind Element.start)) :
    ∀ inner ∈ node.all, ¬ inner.Precedes node := by
  subst hnode
  rintro inner hinner ⟨b, hb, a, ha, hbefore⟩
  match elements with
  | [] => cases ha
  | first :: rest =>
    have hstart := (hmarked first List.mem_cons_self).start
    obtain rfl | ⟨element, helement, hbelow⟩ := mem_all_rule.1 hinner
    · exact hstart.not_before_self ha hb hbefore
    · have hmark := hmarked element helement
      obtain rfl | hrest := List.mem_cons.1 helement
      · have hwithin := (List.pairwise_flatMap.1 horder).1 element helement
        refine hmark.not_before_start hwithin ?_ hbelow ha hb hbefore
        rintro p rfl
        exact hphrases p helement
      · -- all tokens of a later element are behind those of the first
        have hlater := (hmark.nodes hbelow).mono (Element.tokens_subset hrest)
        exact hstart.not_before hlater horder ha hb hbefore

/-- No node of a tree is before a node above it. -/
theorem not_precedes (h : node.Produced tokens) (horder : Ascending tokens) :
    ∀ outer ∈ node.all, ∀ inner ∈ outer.all, ¬ inner.Precedes outer := by
  induction h with
  | leaf token _ =>
    intro outer houter
    rw [List.mem_singleton.1 houter]
    exact not_precedes_leaf token
  | @rule n production elements _ _ _ hphrases ih =>
    have hinner : ∀ p, .phrase p ∈ elements →
        ∀ outer ∈ p.node.all, ∀ inner ∈ outer.all, ¬ inner.Precedes outer := by
      intro p hp
      refine ih p hp (List.Pairwise.sublist ?_ ((List.pairwise_flatMap.1 horder).1 _ hp))
      simp [Element.tokens, Phrase.tokens]
    intro outer houter
    obtain houter | ⟨element, helement, hbelow⟩ := mem_all_rule.1 houter
    · refine not_precedes_rule _ (marked hphrases) horder ?_ houter
      intro p hp
      exact hinner p hp p.node p.node.mem_all_self
    · obtain ⟨t, rfl, rfl⟩ | ⟨p, rfl, hp⟩ := Element.mem_all_cases hbelow
      · exact not_precedes_leaf t
      · exact hinner p helement outer hp

/-- The leaves of a tree are the kept tokens it is produced from. -/
theorem filter_isToken (h : node.Produced tokens) :
    node.all.filter Node.isToken = (tokens.filter fun t => t.kind.isKept).map Token.leaf := by
  induction h with
  | leaf token hk =>
    rw [List.filter_singleton, Terminal.isKept_of_isOperand hk]
    rfl
  | @rule n production elements _ _ _ hphrases ih =>
    rw [all_rule, List.filter_cons_of_neg (by simp [isToken]), List.flatMap_assoc,
      List.filter_flatMap, List.filter_flatMap, List.map_flatMap]
    refine List.flatMap_congr fun element helement => ?_
    cases element with
    | token t =>
      by_cases hk : t.kind.isKept
      · simp [Element.nodes, Element.tokens, hk, all_leaf]
        rfl
      · simp [Element.nodes, Element.tokens, hk]
    | phrase p =>
      rw [Element.tokens, p.filter_isKept, ← ih p helement]
      simp [Element.nodes]

theorem exists_token (h : node.Produced tokens) {kind text : String} {position : Option Position}
    (hleaf : .token kind text position ∈ node.all) :
    ∃ t ∈ tokens, Node.token kind text position = t.leaf := by
  have hmem := List.mem_filter_of_mem hleaf (p := isToken) rfl
  rw [h.filter_isToken, List.mem_map] at hmem
  obtain ⟨t, ht, heq⟩ := hmem
  exact ⟨t, List.mem_of_mem_filter ht, heq.symm⟩

/-- A node produced from no token is the only one of its tree and has no position. -/
theorem eq_of_nil (h : node.Produced []) : node.all = [node] ∧ node.ownPosition? = none := by
  generalize htokens : ([] : List Token) = tokens at h
  cases h with
  | leaf => cases htokens
  | @rule n production elements =>
    match elements with
    | [] => exact ⟨rfl, rfl⟩
    | first :: rest => simp [first.tokens_ne_nil] at htokens

theorem ownPosition?_eq_none_iff (h : node.Produced tokens) {inner : Node}
    (hinner : inner ∈ node.all) :
    inner.ownPosition? = none ↔ inner = node ∧ tokens = [] := by
  by_cases hne : tokens = []
  · subst hne
    obtain ⟨hall, hnone⟩ := h.eq_of_nil
    rw [hall, List.mem_singleton] at hinner
    rw [hinner]
    exact ⟨fun _ => ⟨rfl, rfl⟩, fun _ => hnone⟩
  · constructor
    · exact fun hnone => absurd hnone (h.isMarkOf hne inner hinner).ne_none
    · exact fun hnil => absurd hnil.2 hne

end Node.Produced

end Reckon
