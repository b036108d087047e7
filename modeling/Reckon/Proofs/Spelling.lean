import Reckon.Proofs.Lexicon
import Reckon.Proofs.Shape
import Reckon.Proofs.Soundness

/-!
# Spelling trees

The words that a tree can be written with: its tokens in order, the word `print` and the equals
signs put back, with parentheses where an operand is looser than its place, and wherever else one
likes.  Tokens with those words are a phrase, and it leaves the tree again, but for the positions.
-/

namespace Reckon

/-- A token without its place. -/
structure Word where
  kind : Terminal
  text : String
  deriving DecidableEq

/-- The word of a token. -/
def Token.word (token : Token) : Word := ⟨token.kind, token.text⟩

/-- Whether a text may be the text of a token, a name being none that is also the keyword. -/
def Terminal.Spells (kind : Terminal) (text : String) : Prop :=
  text.toList ∈ kind.language ∧ (kind = .name → text ≠ "print")

/-! ## Trees without positions -/

namespace Node

mutual

/-- A tree with its positions taken off. -/
def unplaced : Node → Node
  | .rule label children _ => .rule label (unplacedAll children) none
  | .token kind text _ => .token kind text none
  | .foreign value => .foreign value

/-- A list of trees with their positions taken off. -/
def unplacedAll : List Node → List Node
  | [] => []
  | node :: rest => node.unplaced :: unplacedAll rest

end

theorem unplacedAll_eq_map (nodes : List Node) : unplacedAll nodes = nodes.map unplaced := by
  induction nodes with
  | nil => rfl
  | cons node rest ih => rw [unplacedAll, ih, List.map_cons]

mutual

/-- The terminals and the texts of the tokens in a tree, in order. -/
def leaves : Node → List (String × String)
  | .rule _ children _ => leavesAll children
  | .token kind text _ => [(kind, text)]
  | .foreign _ => []

/-- The terminals and the texts of the tokens in a list of trees. -/
def leavesAll : List Node → List (String × String)
  | [] => []
  | node :: rest => node.leaves ++ leavesAll rest

end

/-- A program whose tokens are spelled as their terminals are. -/
def WellShaped (tree : Node) : Prop := tree.IsProgram Terminal.Spells fun _ => True

end Node

/-! ## Levels -/

namespace Level

/-- The levels in order, the tightest first. -/
def rank : Level → Nat
  | .atom => 0
  | .pow => 1
  | .unary => 2
  | .mul => 3
  | .add => 4
  | .expr => 5

theorem rank_injective {l m : Level} (h : l.rank = m.rank) : l = m := by
  cases l <;> cases m <;> first | rfl | cases h

/-- A phrase of a level is one of every looser level. -/
theorem Reads.loosen {l m : Level} {ts : List Token} {x : Operand} (h : l.Reads ts x)
    (hlm : l.rank ≤ m.rank) : m.Reads ts x := by
  induction hn : m.rank generalizing m with
  | zero =>
    obtain rfl : l = m := rank_injective (by omega)
    exact h
  | succ n ih =>
    by_cases heq : l.rank = m.rank
    · obtain rfl : l = m := rank_injective heq
      exact h
    · have tighter : ∀ k : Level, k.rank = n → k.Reads ts x := fun k hk => ih (by omega) hk
      cases m with
      | atom => cases hn
      | pow => exact (tighter .atom (by cases hn; rfl)).pow
      | unary => exact (tighter .pow (by cases hn; rfl)).unary
      | mul => exact (tighter .unary (by cases hn; rfl)).mul
      | add => exact (tighter .mul (by cases hn; rfl)).add
      | expr => exact (tighter .add (by cases hn; rfl)).expr

end Level

namespace Rule

/-- The level of the expressions of a rule. -/
def level : Rule → Level
  | .pow => .pow
  | .neg => .unary
  | .mul => .mul
  | .add => .add
  | _ => .expr

/-- The level that the left operand of a rule must have. -/
def left : Rule → Level
  | .pow => .atom
  | .mul => .mul
  | _ => .add

/-- The level that the right operand of a rule must have. -/
def right : Rule → Level
  | .pow | .neg | .mul => .unary
  | .add => .mul
  | _ => .add

end Rule

/-! ## Words -/

/-- The words of an expression where a level is required. -/
inductive Spelled : Level → Node → List Word → Prop
  | token {l : Level} {kind : Terminal} {text : String} {position : Option Position}
      (operand : kind.isOperand) : Spelled l (.token kind.label text position) [⟨kind, text⟩]
  | binary {l : Level} {rule : Rule} {kind : Terminal} {a b : Node} {text : String}
      {place position : Option Position} {us vs : List Word} (joins : rule.joins kind)
      (fits : rule.level.rank ≤ l.rank) (ha : Spelled rule.left a us)
      (hb : Spelled rule.right b vs) :
      Spelled l (.rule rule.label [a, .token kind.label text place, b] position)
        (us ++ ⟨kind, text⟩ :: vs)
  | neg {l : Level} {a : Node} {text : String} {place position : Option Position}
      {us : List Word} (fits : Rule.neg.level.rank ≤ l.rank) (ha : Spelled Rule.neg.right a us) :
      Spelled l (.rule Rule.neg.label [.token Terminal.minus.label text place, a] position)
        (⟨.minus, text⟩ :: us)
  | group {l : Level} {a : Node} {us : List Word} (ha : Spelled .expr a us) :
      Spelled l a (⟨.lparen, "("⟩ :: (us ++ [⟨.rparen, ")"⟩]))

/-- The words of an expression or an assignment. -/
inductive SpelledValue : Node → List Word → Prop
  | expr {a : Node} {us : List Word} (h : Spelled .expr a us) : SpelledValue a us
  | assign {name : String} {a : Node} {place position : Option Position} {us : List Word}
      (h : SpelledValue a us) :
      SpelledValue (.rule Rule.assign.label [.token Terminal.name.label name place, a] position)
        (⟨.name, name⟩ :: ⟨.equals, "="⟩ :: us)

/-- The words of a statement. -/
inductive SpelledStatement : Node → List Word → Prop
  | value {a : Node} {us : List Word} (h : SpelledValue a us) : SpelledStatement a us
  | print {a : Node} {position : Option Position} {us : List Word} (h : Spelled .expr a us) :
      SpelledStatement (.rule Rule.print.label [a] position) (⟨.print, "print"⟩ :: us)

/-! ## Tokens with these words -/

theorem Level.Reads.binary {rule : Rule} {token : Token} {ts us : List Token} {x y : Operand}
    (h : rule.joins token.kind) (hx : rule.left.Reads ts x) (hy : rule.right.Reads us y) :
    rule.level.Reads (ts ++ token :: us) (.binary rule x token y) := by
  cases rule with
  | compare => exact hx.comparison (by simpa [Rule.joins_compare] using h) hy
  | add => exact hx.sum (by rwa [← Rule.joins_add]) hy
  | mul => exact hx.product (by rwa [← Rule.joins_mul]) hy
  | pow => exact hx.power (by simpa [Rule.joins_pow] using h) hy
  | _ => cases h

theorem Spelled.reads {l : Level} {a : Node} {us : List Word} (h : Spelled l a us)
    {ts : List Token} (hts : ts.map Token.word = us) :
    ∃ x : Operand, l.Reads ts x ∧ x.node.unplaced = a.unplaced := by
  induction h generalizing ts with
  | token operand =>
    obtain ⟨token, rest, rfl, hword, hrest⟩ := List.map_eq_cons_iff.1 hts
    obtain rfl := List.map_eq_nil_iff.1 hrest
    cases hword
    exact ⟨.ofToken token, (Level.reads_leaf operand).loosen (Nat.zero_le _), rfl⟩
  | binary joins fits _ _ iha ihb =>
    obtain ⟨left, rest, rfl, hleft, hrest⟩ := List.map_eq_append_iff.1 hts
    obtain ⟨token, right, rfl, hword, hright⟩ := List.map_eq_cons_iff.1 hrest
    cases hword
    obtain ⟨x, hx, hax⟩ := iha hleft
    obtain ⟨y, hy, hby⟩ := ihb hright
    refine ⟨.binary _ x token y, (hx.binary joins hy).loosen fits, ?_⟩
    simp [Operand.binary, Operand.ofRule, Node.unplaced, Node.unplacedAll, hax, hby, Token.leaf]
  | neg fits _ iha =>
    obtain ⟨minus, rest, rfl, hword, hrest⟩ := List.map_eq_cons_iff.1 hts
    obtain ⟨hminus, rfl⟩ := Word.mk.inj hword
    obtain ⟨x, hx, hax⟩ := iha hrest
    refine ⟨.negation minus x, (Level.Reads.negative hminus hx).loosen fits, ?_⟩
    simp [Operand.negation, Operand.ofRule, Node.unplaced, Node.unplacedAll, hax, Token.leaf,
      hminus]
  | group _ iha =>
    obtain ⟨opening, rest, rfl, hword, hrest⟩ := List.map_eq_cons_iff.1 hts
    obtain ⟨hopening, -⟩ := Word.mk.inj hword
    obtain ⟨inner, last, rfl, hinner, hlast⟩ := List.map_eq_append_iff.1 hrest
    obtain ⟨closing, none, rfl, hword, hnone⟩ := List.map_eq_cons_iff.1 hlast
    obtain ⟨hclosing, -⟩ := Word.mk.inj hword
    obtain rfl := List.map_eq_nil_iff.1 hnone
    obtain ⟨x, hx, hax⟩ := iha hinner
    refine ⟨x.enclose opening.mark, (hx.group hopening hclosing).loosen (Nat.zero_le _), ?_⟩
    rw [Operand.node_enclose, hax]

theorem SpelledValue.reads {a : Node} {us : List Word} (h : SpelledValue a us) {ts : List Token}
    (hts : ts.map Token.word = us) :
    ∃ (d : Derivation (.either (.rule .assign) (.rule .expr))) (x : Operand), d.tokens = ts ∧
      d.part = x.part ∧ x.Placed ∧ x.node.unplaced = a.unplaced := by
  induction h generalizing ts with
  | expr h =>
    obtain ⟨x, ⟨d, hd, hpart, hx⟩, hax⟩ := h.reads hts
    exact ⟨.right d, x, hd, hpart, hx, hax⟩
  | assign _ ih =>
    obtain ⟨name, rest, rfl, hword, hrest⟩ := List.map_eq_cons_iff.1 hts
    obtain ⟨hname, rfl⟩ := Word.mk.inj hword
    obtain ⟨equals, value, rfl, hword, hvalue⟩ := List.map_eq_cons_iff.1 hrest
    obtain ⟨hequals, -⟩ := Word.mk.inj hword
    obtain ⟨d, x, rfl, hpart, -, hax⟩ := ih hvalue
    refine ⟨.left (.assignment name equals hname hequals d), _, rfl,
      Derivation.part_assignment hname hequals hpart, Operand.placed_ofRule .., ?_⟩
    simp [Operand.ofRule, Node.unplaced, Node.unplacedAll, hax, Token.leaf, hname]

theorem SpelledStatement.reads {a : Node} {us : List Word} (h : SpelledStatement a us)
    {ts : List Token} (hts : ts.map Token.word = us) :
    ∃ (d : Derivation (.rule .stmt)) (x : Operand), d.tokens = ts ∧ d.part = x.part ∧
      x.node.unplaced = a.unplaced := by
  cases h with
  | value h =>
    obtain ⟨d, x, hd, hpart, hx, hax⟩ := h.reads hts
    cases d with
    | left d => exact ⟨.ofAssign d, x, hd, Derivation.part_inlined rfl _ hpart hx, hax⟩
    | right d => exact ⟨.ofExpr d, x, hd, Derivation.part_inlined rfl _ hpart hx, hax⟩
  | print h =>
    obtain ⟨keyword, rest, rfl, hword, hrest⟩ := List.map_eq_cons_iff.1 hts
    obtain ⟨hprint, -⟩ := Word.mk.inj hword
    obtain ⟨x, ⟨d, rfl, hpart, hx⟩, hax⟩ := h.reads hrest
    refine ⟨.ofPrint (.printing keyword hprint d), _, rfl, Derivation.part_inlined rfl _
      (Derivation.part_printing hprint hpart) (Operand.placed_ofRule ..), ?_⟩
    simp [Operand.ofRule, Node.unplaced, Node.unplacedAll, hax]

/-! ## The texts of these words -/

namespace Node

variable {texts : Terminal → String → Prop} {places : Option Position → Prop} {a : Node}

theorem IsExpr.leaves (h : IsExpr texts places a) :
    ∀ leaf ∈ a.leaves, ∃ kind : Terminal, leaf.1 = kind.label ∧ texts kind leaf.2 := by
  induction h with
  | token _ ht _ => simpa [Node.leaves] using ⟨_, rfl, ht⟩
  | binary _ _ ht _ _ _ iha ihb =>
    simp only [Node.leaves, leavesAll, List.append_nil, List.forall_mem_append,
      List.forall_mem_singleton]
    exact ⟨iha, ⟨_, rfl, ht⟩, ihb⟩
  | neg ht _ _ _ iha =>
    simp only [Node.leaves, leavesAll, List.append_nil, List.forall_mem_append,
      List.forall_mem_singleton]
    exact ⟨⟨_, rfl, ht⟩, iha⟩

theorem IsValue.leaves (h : IsValue texts places a) :
    ∀ leaf ∈ a.leaves, ∃ kind : Terminal, leaf.1 = kind.label ∧ texts kind leaf.2 := by
  induction h with
  | expr h => exact h.leaves
  | assign ht _ _ _ ih =>
    simp only [Node.leaves, leavesAll, List.append_nil, List.forall_mem_append,
      List.forall_mem_singleton]
    exact ⟨⟨_, rfl, ht⟩, ih⟩

theorem IsStatement.leaves (h : IsStatement texts places a) :
    ∀ leaf ∈ a.leaves, ∃ kind : Terminal, leaf.1 = kind.label ∧ texts kind leaf.2 := by
  cases h with
  | value h => exact h.leaves
  | print h =>
    simp only [Node.leaves, leavesAll, List.append_nil]
    exact h.leaves

end Node

/-- The parentheses and equals signs that a spelling adds to the tokens of a tree. -/
def Word.isMark (word : Word) : Bool :=
  word ∈ [⟨.lparen, "("⟩, ⟨.rparen, ")"⟩, ⟨.equals, "="⟩]

/-- Words that are marks or tokens of a tree. -/
def Word.StandsIn (a : Node) (word : Word) : Prop :=
  word.isMark ∨ (word.kind.label, word.text) ∈ a.leaves

theorem Word.StandsIn.of_mem {word : Word} {a : Node} {label : String} {children : List Node}
    {position : Option Position} (h : word.StandsIn a) (ha : a ∈ children) :
    word.StandsIn (.rule label children position) := by
  refine h.imp_right fun hword => ?_
  rw [Node.leaves]
  induction children with
  | nil => cases ha
  | cons child rest ih =>
    rw [Node.leavesAll, List.mem_append]
    obtain rfl | ha := List.mem_cons.1 ha
    · exact .inl hword
    · exact .inr (ih ha)

theorem Spelled.standsIn {l : Level} {a : Node} {us : List Word} (h : Spelled l a us) :
    ∀ word ∈ us, word.StandsIn a := by
  induction h with
  | token => simp [Word.StandsIn, Node.leaves]
  | binary joins _ _ _ iha ihb =>
    rw [List.forall_mem_append, List.forall_mem_cons]
    refine ⟨fun word hword => (iha word hword).of_mem (by simp), ?_,
      fun word hword => (ihb word hword).of_mem (by simp)⟩
    simp [Word.StandsIn, Node.leaves, Node.leavesAll]
  | neg _ _ ih =>
    rw [List.forall_mem_cons]
    refine ⟨?_, fun word hword => (ih word hword).of_mem (by simp)⟩
    simp [Word.StandsIn, Node.leaves, Node.leavesAll]
  | group _ ih =>
    rw [List.forall_mem_cons, List.forall_mem_append, List.forall_mem_singleton]
    exact ⟨.inl rfl, ih, .inl rfl⟩

theorem SpelledValue.standsIn {a : Node} {us : List Word} (h : SpelledValue a us) :
    ∀ word ∈ us, word.StandsIn a := by
  induction h with
  | expr h => exact h.standsIn
  | assign _ ih =>
    rw [List.forall_mem_cons, List.forall_mem_cons]
    refine ⟨?_, .inl rfl, fun word hword => (ih word hword).of_mem (by simp)⟩
    simp [Word.StandsIn, Node.leaves, Node.leavesAll]

theorem Terminal.label_injective {a b : Terminal} (h : a.label = b.label) : a = b := by
  cases a <;> cases b <;> first | rfl | simp [label] at h

theorem Word.StandsIn.spells {word : Word} {a : Node} (h : word.StandsIn a)
    (ha : ∀ leaf ∈ a.leaves, ∃ kind : Terminal, leaf.1 = kind.label ∧ kind.Spells leaf.2) :
    word.kind.Spells word.text := by
  obtain h | h := h
  · simp only [isMark, List.mem_cons, List.not_mem_nil, or_false, decide_eq_true_eq] at h
    obtain rfl | rfl | rfl := h
    all_goals exact ⟨rfl, by simp⟩
  · obtain ⟨kind, hkind, hspells⟩ := ha _ h
    obtain rfl := Terminal.label_injective hkind
    exact hspells

theorem Spelled.ne_print {l : Level} {a : Node} {us : List Word} (h : Spelled l a us) :
    ∀ word ∈ us, word.kind ≠ .print := by
  induction h with
  | token operand =>
    rw [List.forall_mem_singleton]
    rintro rfl
    cases operand
  | @binary _ rule _ _ _ _ _ _ _ _ joins _ _ _ iha ihb =>
    rw [List.forall_mem_append, List.forall_mem_cons]
    refine ⟨iha, ?_, ihb⟩
    rintro rfl
    cases rule <;> cases joins
  | neg _ _ ih =>
    rw [List.forall_mem_cons]
    exact ⟨by simp, ih⟩
  | group _ ih =>
    rw [List.forall_mem_cons, List.forall_mem_append, List.forall_mem_singleton]
    exact ⟨by simp, ih, by simp⟩

theorem SpelledValue.ne_print {a : Node} {us : List Word} (h : SpelledValue a us) :
    ∀ word ∈ us, word.kind ≠ .print := by
  induction h with
  | expr h => exact h.ne_print
  | assign _ ih =>
    rw [List.forall_mem_cons, List.forall_mem_cons]
    exact ⟨by simp, by simp, ih⟩

theorem SpelledStatement.spells {a : Node} {us : List Word} (h : SpelledStatement a us)
    {places : Option Position → Prop} (ha : a.IsStatement Terminal.Spells places) :
    ∀ word ∈ us, word.kind.Spells word.text := by
  cases h with
  | value h => exact fun word hword => (h.standsIn word hword).spells ha.leaves
  | print h =>
    rw [List.forall_mem_cons]
    refine ⟨⟨rfl, by simp⟩, fun word hword => ?_⟩
    exact ((h.standsIn word hword).of_mem (by simp)).spells ha.leaves

theorem SpelledStatement.tail_ne_print {a : Node} {us : List Word} (h : SpelledStatement a us) :
    ∀ word ∈ us.tail, word.kind ≠ .print := by
  cases h with
  | value h => exact fun word hword => h.ne_print word (List.mem_of_mem_tail hword)
  | print h => exact h.ne_print

/-! ## Every tree can be spelled -/

theorem Level.rank_le (l : Level) : l.rank ≤ Level.expr.rank := by
  cases l <;> decide

namespace Node

variable {texts : Terminal → String → Prop} {places : Option Position → Prop} {a : Node}

theorem IsExpr.exists_spelled (h : IsExpr texts places a) (l : Level) : ∃ us, Spelled l a us := by
  induction h generalizing l with
  | token operand => exact ⟨_, .token operand⟩
  | @binary rule _ _ _ _ _ _ joins _ _ _ _ _ iha ihb =>
    obtain ⟨us, ha⟩ := iha rule.left
    obtain ⟨vs, hb⟩ := ihb rule.right
    exact ⟨_, .group (.binary joins (Level.rank_le _) ha hb)⟩
  | neg _ _ _ _ iha =>
    obtain ⟨us, ha⟩ := iha .unary
    exact ⟨_, .group (.neg (Level.rank_le _) ha)⟩

theorem IsValue.exists_spelled (h : IsValue texts places a) : ∃ us, SpelledValue a us := by
  induction h with
  | expr h =>
    obtain ⟨us, hus⟩ := h.exists_spelled .expr
    exact ⟨us, .expr hus⟩
  | assign _ _ _ _ ih =>
    obtain ⟨us, hus⟩ := ih
    exact ⟨_, .assign hus⟩

theorem IsStatement.exists_spelled (h : IsStatement texts places a) :
    ∃ us, SpelledStatement a us := by
  cases h with
  | value h =>
    obtain ⟨us, hus⟩ := h.exists_spelled
    exact ⟨us, .value hus⟩
  | print h =>
    obtain ⟨us, hus⟩ := h.exists_spelled .expr
    exact ⟨_, .print hus⟩

end Node

end Reckon
