import Reckon.Program.Operand

/-!
# The grammar

The grammar of programs, written as data.  A nonterminal has productions, each a pattern of
terminals and nonterminals.  A derivation of a pattern shows how tokens match it, and its part is
what it leaves in the tree:

* separators, parentheses, equals signs and the word `print` leave no node;
* a nonterminal leaves a node with its label, or with the label of the production;
* an inlined nonterminal leaves its child instead, if it has one child and the production no label.

A node counts its position from the first token of its production, kept or not.  Its containers
count from there too, or from the parentheses around it; parentheses around a token count for
nobody.
-/

namespace Reckon

/-- A nonterminal. -/
inductive Nonterminal where
  | program
  | stmt
  | assign
  | print
  | expr
  | add
  | mul
  | unary
  | pow
  | atom
  deriving DecidableEq

/-- The right side of a production. -/
inductive Pattern where
  | terminal (kind : Terminal)
  | rule (n : Nonterminal)
  | seq (p q : Pattern)
  | either (p q : Pattern)
  | optional (p : Pattern)
  | many (p : Pattern)
  deriving DecidableEq

/-- A pattern and the label of the node it makes, if it is not that of its nonterminal. -/
structure Production where
  pattern : Pattern
  label : Option String := none
  deriving DecidableEq

namespace Nonterminal

/-- The label of the node a nonterminal makes. -/
def label : Nonterminal → String
  | .program => "program"
  | .stmt => "stmt"
  | .assign => "assign"
  | .print => "print_stmt"
  | .expr => "expr"
  | .add => "add"
  | .mul => "mul"
  | .unary => "unary"
  | .pow => "pow"
  | .atom => "atom"

/-- Whether a single child stands for the node. -/
def isInlined : Nonterminal → Bool
  | .program | .assign | .print => false
  | _ => true

/-- The productions of a nonterminal. -/
def productions : Nonterminal → List Production
  | .program =>
    [{ pattern :=
        .seq (.many (.seq (.optional (.rule .stmt)) (.terminal .separator)))
          (.optional (.rule .stmt)) }]
  | .stmt => [{ pattern := .rule .assign }, { pattern := .rule .print }, { pattern := .rule .expr }]
  | .assign =>
    [{ pattern :=
        .seq (.terminal .name) (.seq (.terminal .equals)
          (.either (.rule .assign) (.rule .expr))) }]
  | .print => [{ pattern := .seq (.terminal .print) (.rule .expr) }]
  | .expr =>
    [{ pattern := .rule .add },
      { pattern := .seq (.rule .add) (.seq (.terminal .comparison) (.rule .add)),
        label := "compare" }]
  | .add =>
    [{ pattern := .rule .mul },
      { pattern := .seq (.rule .add) (.seq (.either (.terminal .plus) (.terminal .minus))
          (.rule .mul)) }]
  | .mul =>
    [{ pattern := .rule .unary },
      { pattern := .seq (.rule .mul) (.seq (.either (.terminal .star)
          (.either (.terminal .slash) (.terminal .percent))) (.rule .unary)) }]
  | .unary =>
    [{ pattern := .rule .pow },
      { pattern := .seq (.terminal .minus) (.rule .unary), label := "neg" }]
  | .pow =>
    [{ pattern := .rule .atom },
      { pattern := .seq (.rule .atom) (.seq (.terminal .caret) (.rule .unary)) }]
  | .atom =>
    [{ pattern := .terminal .number }, { pattern := .terminal .string },
      { pattern := .terminal .name },
      { pattern := .seq (.terminal .lparen) (.seq (.rule .expr) (.terminal .rparen)) }]

end Nonterminal

/-- Whether the tokens of a terminal become leaves. -/
def Terminal.isKept : Terminal → Bool
  | .equals | .lparen | .rparen | .print | .separator => false
  | _ => true

/-- A way in which tokens match a pattern. -/
inductive Derivation : Pattern → Type where
  | terminal {kind : Terminal} (token : Token) (h : token.kind = kind) :
    Derivation (.terminal kind)
  | rule {n : Nonterminal} (production : Production) (h : production ∈ n.productions)
    (inner : Derivation production.pattern) : Derivation (.rule n)
  | seq {p q : Pattern} (first : Derivation p) (second : Derivation q) : Derivation (.seq p q)
  | left {p q : Pattern} (d : Derivation p) : Derivation (.either p q)
  | right {p q : Pattern} (d : Derivation q) : Derivation (.either p q)
  | absent {p : Pattern} : Derivation (.optional p)
  | present {p : Pattern} (d : Derivation p) : Derivation (.optional p)
  | stop {p : Pattern} : Derivation (.many p)
  | more {p : Pattern} (first : Derivation p) (rest : Derivation (.many p)) : Derivation (.many p)

/-- What some tokens leave in a tree: nodes, and the position from which a node around them
counts its own. -/
@[ext] structure Part where
  nodes : List Node := []
  start : Option Position := none

namespace Part

/-- Two parts side by side. -/
def append (a b : Part) : Part := ⟨a.nodes ++ b.nodes, a.start.or b.start⟩

instance : Append Part := ⟨append⟩

/-- The part that a token leaves. -/
def ofToken (token : Token) : Part :=
  ⟨if token.kind.isKept then [token.leaf] else [], some token.mark.position⟩

/-- The part that a production of a nonterminal leaves, given that of its pattern. -/
def wrap (n : Nonterminal) (label : Option String) (inner : Part) : Part :=
  match n.isInlined, label, inner.nodes with
  | true, none, [.rule ..] => inner
  | true, none, [.token _ _ position] => { inner with start := position }
  | _, label, nodes => ⟨[.rule (label.getD n.label) nodes inner.start], inner.start⟩

end Part

namespace Derivation

variable {p : Pattern}

/-- The tokens of a derivation. -/
def tokens {p : Pattern} : Derivation p → List Token
  | .terminal token _ => [token]
  | .rule _ _ inner => inner.tokens
  | .seq first second => first.tokens ++ second.tokens
  | .left d | .right d | .present d => d.tokens
  | .absent | .stop => []
  | .more first rest => first.tokens ++ rest.tokens

/-- What a derivation leaves in the tree. -/
def part {p : Pattern} : Derivation p → Part
  | .terminal token _ => .ofToken token
  | .rule (n := n) production _ inner => inner.part.wrap n production.label
  | .seq first second => first.part ++ second.part
  | .left d | .right d | .present d => d.part
  | .absent | .stop => {}
  | .more first rest => first.part ++ rest.part

end Derivation

end Reckon
