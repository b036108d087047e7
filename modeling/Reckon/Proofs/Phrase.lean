import Mathlib.Tactic
import Reckon.Proofs.Grammar

/-!
# Expressions and their derivations

The nonterminals of expressions form six levels, from atoms out to comparisons.  This file names
the derivation that each of their productions makes, shows that there are no others
(`Derivation.level_induction`), and gives the operand that each leaves in the tree.
-/

namespace Reckon

/-- Statements that end in separators. -/
abbrev Pattern.lines : Pattern :=
  .many (.seq (.optional (.rule .stmt)) (.terminal .separator))

namespace Pattern

/-- Whether a pattern may match no token at all. -/
def isNullable : Pattern → Bool
  | .terminal _ => false
  | .rule n => n == .program
  | .seq p q => p.isNullable && q.isNullable
  | .either p q => p.isNullable || q.isNullable
  | .optional _ | .many _ => true

theorem not_isNullable_of_mem {n : Nonterminal} {production : Production} (hn : n ≠ .program)
    (h : production ∈ n.productions) : ¬ production.pattern.isNullable := by
  revert production
  cases n <;> first | decide | contradiction

end Pattern

/-- Only a program may have no tokens. -/
theorem Derivation.tokens_ne_nil {p : Pattern} (d : Derivation p) (hp : ¬ p.isNullable) :
    d.tokens ≠ [] := by
  induction d with
  | terminal token h => exact List.cons_ne_nil token []
  | @rule n production h inner ih =>
    exact ih (Pattern.not_isNullable_of_mem (by simpa [Pattern.isNullable] using hp) h)
  | seq first second ihf ihs =>
    rw [Pattern.isNullable, Bool.and_eq_true, not_and_or] at hp
    simp only [tokens, ne_eq, List.append_eq_nil_iff, not_and_or]
    exact hp.imp ihf ihs
  | left d ih | right d ih =>
    rw [Pattern.isNullable, Bool.or_eq_true, not_or] at hp
    exact ih (by simp [hp])
  | absent | present | stop | more => exact absurd rfl hp

/-- A level of expressions, from the tightest to the loosest. -/
inductive Level where
  | atom
  | pow
  | unary
  | mul
  | add
  | expr
  deriving DecidableEq

/-- The nonterminal of a level. -/
abbrev Level.nonterminal : Level → Nonterminal
  | .atom => .atom
  | .pow => .pow
  | .unary => .unary
  | .mul => .mul
  | .add => .add
  | .expr => .expr

namespace Terminal

/-- Whether a token can be an operand. -/
def isOperand : Terminal → Bool
  | .number | .string | .name => true
  | _ => false

/-- Whether a token joins two products. -/
def isSum : Terminal → Bool
  | .plus | .minus => true
  | _ => false

/-- Whether a token joins two factors. -/
def isProduct : Terminal → Bool
  | .star | .slash | .percent => true
  | _ => false

end Terminal

/-! ## The derivations of a level -/

namespace Derivation

/-- A single token. -/
def leaf (token : Token) (h : token.kind.isOperand) : Derivation (.rule .atom) :=
  .rule ⟨.terminal token.kind, none⟩
    (by cases hk : token.kind <;> simp [Nonterminal.productions, hk, Terminal.isOperand] at h ⊢)
    (.terminal token rfl)

/-- An expression in parentheses. -/
def group (opening closing : Token) (ho : opening.kind = .lparen) (hc : closing.kind = .rparen)
    (d : Derivation (.rule .expr)) : Derivation (.rule .atom) :=
  .rule ⟨.seq (.terminal .lparen) (.seq (.rule .expr) (.terminal .rparen)), none⟩
    (by simp [Nonterminal.productions])
    (.seq (.terminal opening ho) (.seq d (.terminal closing hc)))

/-- An atom without a power. -/
def ofAtom (d : Derivation (.rule .atom)) : Derivation (.rule .pow) :=
  .rule ⟨.rule .atom, none⟩ (by simp [Nonterminal.productions]) d

/-- An atom raised to a power. -/
def power (base : Derivation (.rule .atom)) (caret : Token) (h : caret.kind = .caret)
    (exponent : Derivation (.rule .unary)) : Derivation (.rule .pow) :=
  .rule ⟨.seq (.rule .atom) (.seq (.terminal .caret) (.rule .unary)), none⟩
    (by simp [Nonterminal.productions]) (.seq base (.seq (.terminal caret h) exponent))

/-- A power without a minus sign. -/
def ofPow (d : Derivation (.rule .pow)) : Derivation (.rule .unary) :=
  .rule ⟨.rule .pow, none⟩ (by simp [Nonterminal.productions]) d

/-- An operand behind a minus sign. -/
def negative (minus : Token) (h : minus.kind = .minus) (d : Derivation (.rule .unary)) :
    Derivation (.rule .unary) :=
  .rule ⟨.seq (.terminal .minus) (.rule .unary), some "neg"⟩ (by simp [Nonterminal.productions])
    (.seq (.terminal minus h) d)

/-- A single factor. -/
def ofUnary (d : Derivation (.rule .unary)) : Derivation (.rule .mul) :=
  .rule ⟨.rule .unary, none⟩ (by simp [Nonterminal.productions]) d

/-- One of the operators between factors. -/
def productOperator (token : Token) (h : token.kind.isProduct) :
    Derivation (.either (.terminal .star) (.either (.terminal .slash) (.terminal .percent))) :=
  if star : token.kind = .star then .left (.terminal token star)
  else if slash : token.kind = .slash then .right (.left (.terminal token slash))
  else .right (.right (.terminal token (by
    cases hk : token.kind <;> simp_all [Terminal.isProduct])))

/-- A product and one more factor. -/
def product (left : Derivation (.rule .mul)) (operator : Token) (h : operator.kind.isProduct)
    (right : Derivation (.rule .unary)) : Derivation (.rule .mul) :=
  .rule ⟨.seq (.rule .mul) (.seq (.either (.terminal .star)
      (.either (.terminal .slash) (.terminal .percent))) (.rule .unary)), none⟩
    (by simp [Nonterminal.productions]) (.seq left (.seq (productOperator operator h) right))

/-- A single product. -/
def ofMul (d : Derivation (.rule .mul)) : Derivation (.rule .add) :=
  .rule ⟨.rule .mul, none⟩ (by simp [Nonterminal.productions]) d

/-- One of the operators between products. -/
def sumOperator (token : Token) (h : token.kind.isSum) :
    Derivation (.either (.terminal .plus) (.terminal .minus)) :=
  if plus : token.kind = .plus then .left (.terminal token plus)
  else .right (.terminal token (by cases hk : token.kind <;> simp_all [Terminal.isSum]))

/-- A sum and one more product. -/
def sum (left : Derivation (.rule .add)) (operator : Token) (h : operator.kind.isSum)
    (right : Derivation (.rule .mul)) : Derivation (.rule .add) :=
  .rule ⟨.seq (.rule .add) (.seq (.either (.terminal .plus) (.terminal .minus)) (.rule .mul)),
      none⟩
    (by simp [Nonterminal.productions]) (.seq left (.seq (sumOperator operator h) right))

/-- A sum that is not compared. -/
def ofAdd (d : Derivation (.rule .add)) : Derivation (.rule .expr) :=
  .rule ⟨.rule .add, none⟩ (by simp [Nonterminal.productions]) d

/-- Two sums compared. -/
def comparison (left : Derivation (.rule .add)) (operator : Token)
    (h : operator.kind = .comparison) (right : Derivation (.rule .add)) :
    Derivation (.rule .expr) :=
  .rule ⟨.seq (.rule .add) (.seq (.terminal .comparison) (.rule .add)), some "compare"⟩
    (by simp [Nonterminal.productions]) (.seq left (.seq (.terminal operator h) right))

/-! ## There are no others -/

theorem atom_cases (d : Derivation (.rule .atom)) :
    (∃ token h, d = leaf token h) ∨
      ∃ opening closing ho hc e, d = group opening closing ho hc e := by
  cases d with
  | rule production h inner =>
    simp only [Nonterminal.productions, List.mem_cons, List.not_mem_nil, or_false] at h
    rcases h with rfl | rfl | rfl | rfl
    case inr.inr.inr =>
      obtain _ | _ | ⟨_ | _, _ | _ | ⟨e, _ | _⟩⟩ := inner
      exact .inr ⟨_, _, _, _, _, rfl⟩
    all_goals
      obtain ⟨⟨kind, text, mark⟩, hk⟩ := inner
      cases hk
      exact .inl ⟨⟨_, text, mark⟩, rfl, rfl⟩

theorem pow_cases (d : Derivation (.rule .pow)) :
    (∃ e, d = ofAtom e) ∨ ∃ base caret h exponent, d = power base caret h exponent := by
  cases d with
  | rule production h inner =>
    simp only [Nonterminal.productions, List.mem_cons, List.not_mem_nil, or_false] at h
    rcases h with rfl | rfl
    · exact .inl ⟨inner, rfl⟩
    · obtain _ | _ | ⟨base, _ | _ | ⟨_ | _, exponent⟩⟩ := inner
      exact .inr ⟨_, _, _, _, rfl⟩

theorem unary_cases (d : Derivation (.rule .unary)) :
    (∃ e, d = ofPow e) ∨ ∃ minus h e, d = negative minus h e := by
  cases d with
  | rule production h inner =>
    simp only [Nonterminal.productions, List.mem_cons, List.not_mem_nil, or_false] at h
    rcases h with rfl | rfl
    · exact .inl ⟨inner, rfl⟩
    · obtain _ | _ | ⟨_ | _, e⟩ := inner
      exact .inr ⟨_, _, _, rfl⟩

theorem productOperator_cases
    (d : Derivation (.either (.terminal .star) (.either (.terminal .slash) (.terminal .percent)))) :
    ∃ token h, d = productOperator token h := by
  cases d with
  | left d =>
    obtain ⟨token, hk⟩ := d
    exact ⟨token, by simp [hk, Terminal.isProduct], by simp [productOperator, hk]⟩
  | right d =>
    cases d with
    | left d | right d =>
      obtain ⟨token, hk⟩ := d
      exact ⟨token, by simp [hk, Terminal.isProduct], by simp [productOperator, hk]⟩

theorem mul_cases (d : Derivation (.rule .mul)) :
    (∃ e, d = ofUnary e) ∨ ∃ left operator h right, d = product left operator h right := by
  cases d with
  | rule production h inner =>
    simp only [Nonterminal.productions, List.mem_cons, List.not_mem_nil, or_false] at h
    rcases h with rfl | rfl
    · exact .inl ⟨inner, rfl⟩
    · obtain _ | _ | ⟨left, _ | _ | ⟨operator, right⟩⟩ := inner
      obtain ⟨token, h, rfl⟩ := productOperator_cases operator
      exact .inr ⟨left, token, h, right, rfl⟩

theorem sumOperator_cases (d : Derivation (.either (.terminal .plus) (.terminal .minus))) :
    ∃ token h, d = sumOperator token h := by
  cases d with
  | left d | right d =>
    obtain ⟨token, hk⟩ := d
    exact ⟨token, by simp [hk, Terminal.isSum], by simp [sumOperator, hk]⟩

theorem add_cases (d : Derivation (.rule .add)) :
    (∃ e, d = ofMul e) ∨ ∃ left operator h right, d = sum left operator h right := by
  cases d with
  | rule production h inner =>
    simp only [Nonterminal.productions, List.mem_cons, List.not_mem_nil, or_false] at h
    rcases h with rfl | rfl
    · exact .inl ⟨inner, rfl⟩
    · obtain _ | _ | ⟨left, _ | _ | ⟨operator, right⟩⟩ := inner
      obtain ⟨token, h, rfl⟩ := sumOperator_cases operator
      exact .inr ⟨left, token, h, right, rfl⟩

theorem expr_cases (d : Derivation (.rule .expr)) :
    (∃ e, d = ofAdd e) ∨ ∃ left operator h right, d = comparison left operator h right := by
  cases d with
  | rule production h inner =>
    simp only [Nonterminal.productions, List.mem_cons, List.not_mem_nil, or_false] at h
    rcases h with rfl | rfl
    · exact .inl ⟨inner, rfl⟩
    · obtain _ | _ | ⟨left, _ | _ | ⟨_ | _, right⟩⟩ := inner
      exact .inr ⟨_, _, _, _, rfl⟩

/-- The number of steps of a derivation. -/
def size {p : Pattern} : Derivation p → Nat
  | .terminal _ _ | .absent | .stop => 1
  | .rule _ _ d | .left d | .right d | .present d => d.size + 1
  | .seq d e | .more d e => d.size + e.size + 1

/-- Every derivation of an expression is made by the derivations above. -/
@[elab_as_elim]
theorem level_induction {motive : (l : Level) → Derivation (.rule l.nonterminal) → Prop}
    (leaf : ∀ token h, motive .atom (leaf token h))
    (group : ∀ opening closing ho hc d, motive .expr d →
      motive .atom (group opening closing ho hc d))
    (ofAtom : ∀ d, motive .atom d → motive .pow (ofAtom d))
    (power : ∀ base caret h exponent, motive .atom base → motive .unary exponent →
      motive .pow (power base caret h exponent))
    (ofPow : ∀ d, motive .pow d → motive .unary (ofPow d))
    (negative : ∀ minus h d, motive .unary d → motive .unary (negative minus h d))
    (ofUnary : ∀ d, motive .unary d → motive .mul (ofUnary d))
    (product : ∀ left operator h right, motive .mul left → motive .unary right →
      motive .mul (product left operator h right))
    (ofMul : ∀ d, motive .mul d → motive .add (ofMul d))
    (sum : ∀ left operator h right, motive .add left → motive .mul right →
      motive .add (sum left operator h right))
    (ofAdd : ∀ d, motive .add d → motive .expr (ofAdd d))
    (comparison : ∀ left operator h right, motive .add left → motive .add right →
      motive .expr (comparison left operator h right))
    (l : Level) (d : Derivation (.rule l.nonterminal)) : motive l d := by
  -- the recursion is on the size of the derivation, as most productions keep the level's tokens
  induction hk : d.size using Nat.strong_induction_on generalizing l d with
  | _ k ih =>
    subst hk
    cases l with
    | atom =>
      obtain ⟨token, h, rfl⟩ | ⟨opening, closing, ho, hc, e, rfl⟩ := atom_cases d
      · exact leaf token h
      · exact group _ _ _ _ e (ih _ (by simp only [Derivation.group, size]; omega) .expr e rfl)
    | pow =>
      obtain ⟨e, rfl⟩ | ⟨base, caret, h, exponent, rfl⟩ := pow_cases d
      · exact ofAtom e (ih _ (by simp only [Derivation.ofAtom, size]; omega) .atom e rfl)
      · exact power _ _ _ _ (ih _ (by simp only [Derivation.power, size]; omega) .atom base rfl)
          (ih _ (by simp only [Derivation.power, size]; omega) .unary exponent rfl)
    | unary =>
      obtain ⟨e, rfl⟩ | ⟨minus, h, e, rfl⟩ := unary_cases d
      · exact ofPow e (ih _ (by simp only [Derivation.ofPow, size]; omega) .pow e rfl)
      · exact negative _ _ e (ih _ (by simp only [Derivation.negative, size]; omega) .unary e rfl)
    | mul =>
      obtain ⟨e, rfl⟩ | ⟨left, operator, h, right, rfl⟩ := mul_cases d
      · exact ofUnary e (ih _ (by simp only [Derivation.ofUnary, size]; omega) .unary e rfl)
      · exact product _ _ _ _ (ih _ (by simp only [Derivation.product, size]; omega) .mul left rfl)
          (ih _ (by simp only [Derivation.product, size]; omega) .unary right rfl)
    | add =>
      obtain ⟨e, rfl⟩ | ⟨left, operator, h, right, rfl⟩ := add_cases d
      · exact ofMul e (ih _ (by simp only [Derivation.ofMul, size]; omega) .mul e rfl)
      · exact sum _ _ _ _ (ih _ (by simp only [Derivation.sum, size]; omega) .add left rfl)
          (ih _ (by simp only [Derivation.sum, size]; omega) .mul right rfl)
    | expr =>
      obtain ⟨e, rfl⟩ | ⟨left, operator, h, right, rfl⟩ := expr_cases d
      · exact ofAdd e (ih _ (by simp only [Derivation.ofAdd, size]; omega) .add e rfl)
      · exact comparison _ _ _ _
          (ih _ (by simp only [Derivation.comparison, size]; omega) .add left rfl)
          (ih _ (by simp only [Derivation.comparison, size]; omega) .add right rfl)

/-! ## Their tokens -/

@[simp] theorem tokens_leaf (token : Token) (h : token.kind.isOperand) :
    (leaf token h).tokens = [token] := rfl

@[simp] theorem tokens_group (opening closing : Token) (ho : opening.kind = .lparen)
    (hc : closing.kind = .rparen) (d : Derivation (.rule .expr)) :
    (group opening closing ho hc d).tokens = opening :: (d.tokens ++ [closing]) := rfl

@[simp] theorem tokens_power (base : Derivation (.rule .atom)) (caret : Token)
    (h : caret.kind = .caret) (exponent : Derivation (.rule .unary)) :
    (power base caret h exponent).tokens = base.tokens ++ caret :: exponent.tokens := rfl

@[simp] theorem tokens_ofPow (d : Derivation (.rule .pow)) : (ofPow d).tokens = d.tokens := rfl

@[simp] theorem tokens_negative (minus : Token) (h : minus.kind = .minus)
    (d : Derivation (.rule .unary)) : (negative minus h d).tokens = minus :: d.tokens := rfl

@[simp] theorem tokens_ofUnary (d : Derivation (.rule .unary)) :
    (ofUnary d).tokens = d.tokens := rfl

@[simp] theorem tokens_productOperator (token : Token) (h : token.kind.isProduct) :
    (productOperator token h).tokens = [token] := by
  unfold productOperator
  split_ifs <;> rfl

@[simp] theorem tokens_product (left : Derivation (.rule .mul)) (operator : Token)
    (h : operator.kind.isProduct) (right : Derivation (.rule .unary)) :
    (product left operator h right).tokens = left.tokens ++ operator :: right.tokens := by
  simp [product, tokens]

@[simp] theorem tokens_ofMul (d : Derivation (.rule .mul)) : (ofMul d).tokens = d.tokens := rfl

@[simp] theorem tokens_sumOperator (token : Token) (h : token.kind.isSum) :
    (sumOperator token h).tokens = [token] := by
  unfold sumOperator
  split_ifs <;> rfl

@[simp] theorem tokens_sum (left : Derivation (.rule .add)) (operator : Token)
    (h : operator.kind.isSum) (right : Derivation (.rule .mul)) :
    (sum left operator h right).tokens = left.tokens ++ operator :: right.tokens := by
  simp [sum, tokens]

@[simp] theorem tokens_comparison (left : Derivation (.rule .add)) (operator : Token)
    (h : operator.kind = .comparison) (right : Derivation (.rule .add)) :
    (comparison left operator h right).tokens = left.tokens ++ operator :: right.tokens := rfl

end Derivation

/-! ## Their operands -/

namespace Operand

/-- The part of a tree that an operand stands for. -/
def part (x : Operand) : Part := ⟨[x.node], some x.start.position⟩

/-- Whether an operand that is a token starts at the token. -/
def Placed (x : Operand) : Prop :=
  match x.node with
  | .rule .. => True
  | .token _ _ position => position = some x.start.position
  | .foreign _ => False

theorem placed_ofToken (token : Token) : (ofToken token).Placed := rfl

theorem placed_ofRule (rule : Rule) (children : List Node) (start : Mark) :
    (ofRule rule children start).Placed := trivial

theorem Placed.enclose {x : Operand} (hx : x.Placed) (opening : Mark) :
    (x.enclose opening).Placed := by
  obtain ⟨_ | _ | _, start⟩ := x
  · trivial
  · exact hx
  · exact hx

end Operand

namespace Part

@[simp] theorem nodes_append (a b : Part) : (a ++ b).nodes = a.nodes ++ b.nodes := rfl

@[simp] theorem start_append (a b : Part) : (a ++ b).start = a.start.or b.start := rfl

@[simp] theorem ofToken_nodes_kept {token : Token} (h : token.kind.isKept) :
    (ofToken token).nodes = [token.leaf] := if_pos h

@[simp] theorem ofToken_start (token : Token) :
    (ofToken token).start = some token.mark.position := rfl

/-- An inlined nonterminal leaves a lone operand as it is. -/
theorem wrap_operand {n : Nonterminal} (hn : n.isInlined) {x : Operand} (hx : x.Placed) :
    x.part.wrap n none = x.part := by
  obtain ⟨_ | ⟨kind, text, position⟩ | _, start⟩ := x
  · simp [wrap, hn, Operand.part]
  · simp only [Operand.Placed] at hx
    simp [wrap, hn, Operand.part, hx]
  · exact hx.elim

/-- Parentheses move the start of an operand unless it is a token. -/
theorem wrap_enclosed {opening closing : Token} (ho : opening.kind = .lparen)
    (hc : closing.kind = .rparen) {x : Operand} (hx : x.Placed) :
    (ofToken opening ++ (x.part ++ ofToken closing)).wrap .atom none =
      (x.enclose opening.mark).part := by
  have nodes : (ofToken opening ++ (x.part ++ ofToken closing)).nodes = [x.node] := by
    simp [ofToken, ho, hc, Terminal.isKept, Operand.part]
  obtain ⟨_ | ⟨kind, text, position⟩ | _, start⟩ := x
  · simp only [wrap, nodes, Nonterminal.isInlined]
    simp [Operand.enclose, Operand.part, ofToken, ho, hc, Terminal.isKept]
    rfl
  · simp only [Operand.Placed] at hx
    simp only [wrap, nodes, Nonterminal.isInlined]
    simp [Operand.enclose, Operand.part, hx]
  · exact hx.elim

/-- Two operands and the operator between them make a node. -/
theorem wrap_binary (n : Nonterminal) (label : Option String) {rule : Rule} {x y : Operand}
    {operator : Token} (hl : label.getD n.label = rule.label) (hk : operator.kind.isKept) :
    (x.part ++ (ofToken operator ++ y.part)).wrap n label =
      (Operand.binary rule x operator y).part := by
  have nodes : (x.part ++ (ofToken operator ++ y.part)).nodes =
      [x.node, operator.leaf, y.node] := by simp [hk, Operand.part]
  simp only [wrap, nodes]
  simp [Operand.part, Operand.binary, Operand.ofRule, hl]

end Part

namespace Derivation

variable {x y : Operand}

theorem part_leaf (token : Token) (h : token.kind.isOperand) :
    (leaf token h).part = (Operand.ofToken token).part := by
  have kept : token.kind.isKept := by
    cases hk : token.kind <;> simp [hk, Terminal.isOperand, Terminal.isKept] at h ⊢
  change (Part.ofToken token).wrap .atom none = _
  rw [← Part.wrap_operand (n := .atom) rfl (Operand.placed_ofToken token)]
  simp [Part.ofToken, kept, Operand.part, Operand.ofToken]

theorem part_group {d : Derivation (.rule .expr)} (opening closing : Token)
    (ho : opening.kind = .lparen) (hc : closing.kind = .rparen) (hd : d.part = x.part)
    (hx : x.Placed) : (group opening closing ho hc d).part = (x.enclose opening.mark).part := by
  rw [← Part.wrap_enclosed ho hc hx, ← hd]
  rfl

/-- An inlined nonterminal in place of another leaves the same operand. -/
theorem part_inlined {n m : Nonterminal} (hn : n.isInlined)
    (h : ⟨.rule m, none⟩ ∈ n.productions) {d : Derivation (.rule m)} (hd : d.part = x.part)
    (hx : x.Placed) : (Derivation.rule ⟨.rule m, none⟩ h d).part = x.part := by
  rw [← Part.wrap_operand hn hx, ← hd]
  rfl

theorem part_power {base : Derivation (.rule .atom)} (caret : Token) (h : caret.kind = .caret)
    {exponent : Derivation (.rule .unary)} (hb : base.part = x.part)
    (he : exponent.part = y.part) :
    (power base caret h exponent).part = (Operand.binary .pow x caret y).part := by
  rw [← Part.wrap_binary .pow none rfl (by rw [h]; rfl), ← hb, ← he]
  rfl

theorem part_negative {d : Derivation (.rule .unary)} (minus : Token) (h : minus.kind = .minus)
    (hd : d.part = x.part) : (negative minus h d).part = (Operand.negation minus x).part := by
  change (Part.ofToken minus ++ d.part).wrap .unary (some "neg") = _
  simp [hd, Part.wrap, Part.ofToken, h, Terminal.isKept, Operand.part, Operand.negation,
    Operand.ofRule, Rule.label]

theorem part_productOperator (token : Token) (h : token.kind.isProduct) :
    (productOperator token h).part = .ofToken token := by
  unfold productOperator
  split_ifs <;> rfl

theorem part_product {left : Derivation (.rule .mul)} (operator : Token)
    (h : operator.kind.isProduct) {right : Derivation (.rule .unary)} (hl : left.part = x.part)
    (hr : right.part = y.part) :
    (product left operator h right).part = (Operand.binary .mul x operator y).part := by
  have kept : operator.kind.isKept := by
    cases hk : operator.kind <;> simp [hk, Terminal.isProduct, Terminal.isKept] at h ⊢
  rw [← Part.wrap_binary .mul none rfl kept, ← hl, ← hr,
    ← part_productOperator operator h]
  rfl

theorem part_sumOperator (token : Token) (h : token.kind.isSum) :
    (sumOperator token h).part = .ofToken token := by
  unfold sumOperator
  split_ifs <;> rfl

theorem part_sum {left : Derivation (.rule .add)} (operator : Token) (h : operator.kind.isSum)
    {right : Derivation (.rule .mul)} (hl : left.part = x.part) (hr : right.part = y.part) :
    (sum left operator h right).part = (Operand.binary .add x operator y).part := by
  have kept : operator.kind.isKept := by
    cases hk : operator.kind <;> simp [hk, Terminal.isSum, Terminal.isKept] at h ⊢
  rw [← Part.wrap_binary .add none rfl kept, ← hl, ← hr,
    ← part_sumOperator operator h]
  rfl

theorem part_comparison {left : Derivation (.rule .add)} (operator : Token)
    (h : operator.kind = .comparison) {right : Derivation (.rule .add)} (hl : left.part = x.part)
    (hr : right.part = y.part) :
    (comparison left operator h right).part = (Operand.binary .compare x operator y).part := by
  rw [← Part.wrap_binary .expr (some "compare") rfl (by rw [h]; rfl), ← hl, ← hr]
  rfl

/-! ## Statements -/

/-- The name and the equals sign in front of an assignment's value. -/
def assignment (name equals : Token) (hn : name.kind = .name) (he : equals.kind = .equals)
    (value : Derivation (.either (.rule .assign) (.rule .expr))) : Derivation (.rule .assign) :=
  .rule ⟨.seq (.terminal .name) (.seq (.terminal .equals)
      (.either (.rule .assign) (.rule .expr))), none⟩
    (by simp [Nonterminal.productions])
    (.seq (.terminal name hn) (.seq (.terminal equals he) value))

/-- An expression to be printed. -/
def printing (keyword : Token) (h : keyword.kind = .print) (d : Derivation (.rule .expr)) :
    Derivation (.rule .print) :=
  .rule ⟨.seq (.terminal .print) (.rule .expr), none⟩ (by simp [Nonterminal.productions])
    (.seq (.terminal keyword h) d)

/-- An assignment as a statement. -/
def ofAssign (d : Derivation (.rule .assign)) : Derivation (.rule .stmt) :=
  .rule ⟨.rule .assign, none⟩ (by simp [Nonterminal.productions]) d

/-- Printing as a statement. -/
def ofPrint (d : Derivation (.rule .print)) : Derivation (.rule .stmt) :=
  .rule ⟨.rule .print, none⟩ (by simp [Nonterminal.productions]) d

/-- An expression as a statement. -/
def ofExpr (d : Derivation (.rule .expr)) : Derivation (.rule .stmt) :=
  .rule ⟨.rule .expr, none⟩ (by simp [Nonterminal.productions]) d

theorem assign_cases (d : Derivation (.rule .assign)) :
    ∃ name equals hn he value, d = assignment name equals hn he value := by
  cases d with
  | rule production h inner =>
    simp only [Nonterminal.productions, List.mem_singleton] at h
    subst h
    obtain _ | _ | ⟨_ | _, _ | _ | ⟨_ | _, value⟩⟩ := inner
    exact ⟨_, _, _, _, _, rfl⟩

theorem print_cases (d : Derivation (.rule .print)) :
    ∃ keyword h e, d = printing keyword h e := by
  cases d with
  | rule production h inner =>
    simp only [Nonterminal.productions, List.mem_singleton] at h
    subst h
    obtain _ | _ | ⟨_ | _, e⟩ := inner
    exact ⟨_, _, _, rfl⟩

theorem stmt_cases (d : Derivation (.rule .stmt)) :
    (∃ e, d = ofAssign e) ∨ (∃ keyword h e, d = ofPrint (printing keyword h e)) ∨
      ∃ e, d = ofExpr e := by
  cases d with
  | rule production h inner =>
    simp only [Nonterminal.productions, List.mem_cons, List.not_mem_nil, or_false] at h
    rcases h with rfl | rfl | rfl
    · exact .inl ⟨inner, rfl⟩
    · obtain ⟨keyword, h, e, rfl⟩ := print_cases inner
      exact .inr (.inl ⟨keyword, h, e, rfl⟩)
    · exact .inr (.inr ⟨inner, rfl⟩)

/-- Assignments are chains of targets in front of an expression. -/
@[elab_as_elim]
theorem assign_induction {motive : Derivation (.rule .assign) → Prop}
    (last : ∀ name equals hn he value, motive (assignment name equals hn he (.right value)))
    (chain : ∀ name equals hn he value, motive value →
      motive (assignment name equals hn he (.left value)))
    (d : Derivation (.rule .assign)) : motive d := by
  induction hk : d.size using Nat.strong_induction_on generalizing d with
  | _ k ih =>
    subst hk
    obtain ⟨name, equals, hn, he, value, rfl⟩ := assign_cases d
    cases value with
    | left value =>
      exact chain _ _ _ _ value (ih _ (by simp only [assignment, size]; omega) value rfl)
    | right value => exact last _ _ _ _ value

@[simp] theorem tokens_assignment (name equals : Token) (hn : name.kind = .name)
    (he : equals.kind = .equals) (value : Derivation (.either (.rule .assign) (.rule .expr))) :
    (assignment name equals hn he value).tokens = name :: equals :: value.tokens := rfl

@[simp] theorem tokens_printing (keyword : Token) (h : keyword.kind = .print)
    (d : Derivation (.rule .expr)) : (printing keyword h d).tokens = keyword :: d.tokens := rfl

@[simp] theorem tokens_ofAssign (d : Derivation (.rule .assign)) :
    (ofAssign d).tokens = d.tokens := rfl

@[simp] theorem tokens_ofPrint (d : Derivation (.rule .print)) :
    (ofPrint d).tokens = d.tokens := rfl

theorem part_assignment {name equals : Token} (hn : name.kind = .name)
    (he : equals.kind = .equals) {value : Derivation (.either (.rule .assign) (.rule .expr))}
    (hv : value.part = x.part) :
    (assignment name equals hn he value).part =
      (Operand.ofRule .assign [name.leaf, x.node] name.mark).part := by
  change (Part.ofToken name ++ (Part.ofToken equals ++ value.part)).wrap .assign none = _
  simp [hv, Part.wrap, Part.ofToken, hn, he, Terminal.isKept, Nonterminal.isInlined,
    Operand.part, Operand.ofRule, Nonterminal.label, Rule.label]

theorem part_printing {keyword : Token} (h : keyword.kind = .print)
    {d : Derivation (.rule .expr)} (hd : d.part = x.part) :
    (printing keyword h d).part = (Operand.ofRule .print [x.node] keyword.mark).part := by
  change (Part.ofToken keyword ++ d.part).wrap .print none = _
  simp [hd, Part.wrap, Part.ofToken, h, Terminal.isKept, Nonterminal.isInlined,
    Operand.part, Operand.ofRule, Nonterminal.label, Rule.label]

/-! ## Programs -/

/-- Statements that end in separators, and a last one that does not. -/
def program (lines : Derivation Pattern.lines) (last : Derivation (.optional (.rule .stmt))) :
    Derivation (.rule .program) :=
  .rule ⟨.seq .lines (.optional (.rule .stmt)), none⟩ (by simp [Nonterminal.productions])
    (.seq lines last)

theorem program_cases (d : Derivation (.rule .program)) : ∃ lines last, d = program lines last := by
  cases d with
  | rule production h inner =>
    simp only [Nonterminal.productions, List.mem_singleton] at h
    subst h
    obtain _ | _ | ⟨lines, last⟩ := inner
    exact ⟨lines, last, rfl⟩

@[simp] theorem tokens_program (lines : Derivation Pattern.lines)
    (last : Derivation (.optional (.rule .stmt))) :
    (program lines last).tokens = lines.tokens ++ last.tokens := rfl

theorem part_program (lines : Derivation Pattern.lines)
    (last : Derivation (.optional (.rule .stmt))) :
    (program lines last).part = (lines.part ++ last.part).wrap .program none := rfl

end Derivation

end Reckon
