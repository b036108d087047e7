import Reckon.Proofs.Parsing
import Reckon.Proofs.Spelling

/-!
# Precedence and associativity

The outermost operation of an expression can be read off its tokens, without a derivation
(`Outermost.ofTokens?`).  It is the comparison outside all parentheses, if there is one; else the
last sign of a sum; else the last sign of a product; else a minus sign in front; else the first
caret; else the expression is one token, or all of it stands in parentheses.  What stands before
and behind the operator are expressions again, and they leave the operands.

The operators that a phrase shows outside its parentheses are those of its level and of tighter
ones (`Level.Shows`), by induction on derivations.
-/

namespace Reckon

namespace Terminal

/-- Whether a token can be the last one of an operand. -/
def endsOperand (kind : Terminal) : Bool := kind.isOperand || kind == .rparen

/-- By how much a token deepens the nesting in parentheses. -/
def deepens : Terminal → Int
  | .lparen => 1
  | .rparen => -1
  | _ => 0

end Terminal

namespace Rule

theorem deepens_of_joins {rule : Rule} {kind : Terminal} (h : rule.joins kind) :
    kind.deepens = 0 := by
  cases rule <;> cases kind <;> first | rfl | cases h

theorem endsOperand_of_joins {rule : Rule} {kind : Terminal} (h : rule.joins kind) :
    kind.endsOperand = false := by
  cases rule <;> cases kind <;> first | rfl | cases h

theorem eq_of_joins {rule other : Rule} {kind : Terminal} (h : rule.joins kind)
    (ho : other.joins kind) : rule = other := by
  unfold joins at h
  split at h <;> first
    | cases h; done
    | cases other <;> first | rfl | cases ho

theorem left_rank_le {rule : Rule} {kind : Terminal} (h : rule.joins kind) :
    rule.left.rank ≤ rule.level.rank := by
  cases rule <;> first | decide | cases h

/-- A binary operator that fits in the right operand of another fits in its place, as the sign that
the exponent of a power may have is no binary operator. -/
theorem rank_le_of_right {rule other : Rule} {kind kind' : Terminal} (h : rule.joins kind)
    (ho : other.joins kind') (hr : other.level.rank ≤ rule.right.rank) :
    other.level.rank ≤ rule.level.rank := by
  cases rule <;> cases other <;> first | decide | cases h | cases ho | exact absurd hr (by decide)

end Rule

variable {ts us : List Token} {token : Token}

/-! ## Parentheses -/

/-- How many parentheses some tokens leave open. -/
def nesting (tokens : List Token) : Int := (tokens.map (·.kind.deepens)).sum

@[simp] theorem nesting_nil : nesting [] = 0 := rfl

@[simp] theorem nesting_cons (token : Token) (ts : List Token) :
    nesting (token :: ts) = token.kind.deepens + nesting ts := List.sum_cons

@[simp] theorem nesting_append (ts us : List Token) :
    nesting (ts ++ us) = nesting ts + nesting us := by
  rw [nesting, List.map_append, List.sum_append]
  rfl

/-- Each parenthesis has its partner. -/
structure Balanced (tokens : List Token) : Prop where
  nesting_eq : nesting tokens = 0
  nesting_nonneg : ∀ front, front <+: tokens → 0 ≤ nesting front

theorem balanced_singleton (h : token.kind.deepens = 0) : Balanced [token] where
  nesting_eq := by simp [h]
  nesting_nonneg front hfront := by
    obtain rfl | ⟨more, rfl, hmore⟩ := List.prefix_cons_iff.1 hfront
    · rfl
    · rw [List.prefix_nil.1 hmore]
      simp [h]

namespace Balanced

theorem append (ht : Balanced ts) (hu : Balanced us) : Balanced (ts ++ us) where
  nesting_eq := by rw [nesting_append, ht.nesting_eq, hu.nesting_eq, add_zero]
  nesting_nonneg front hfront := by
    obtain hshort | ⟨more, rfl⟩ :=
      List.prefix_or_prefix_of_prefix hfront (List.prefix_append ts us)
    · exact ht.nesting_nonneg front hshort
    · rw [nesting_append, ht.nesting_eq, zero_add]
      exact hu.nesting_nonneg more ((List.prefix_append_right_inj ts).1 hfront)

/-- Inside of a pair of parentheses no parentheses are missing. -/
theorem nesting_pos {opening : Token} (ht : Balanced ts) (ho : opening.kind = .lparen)
    {front : List Token} (hfront : front <+: ts) : 0 < nesting (opening :: front) := by
  have hnonneg := ht.nesting_nonneg front hfront
  have hopens : opening.kind.deepens = 1 := by rw [ho]; rfl
  rw [nesting_cons, hopens]
  omega

theorem group {opening closing : Token} (ht : Balanced ts) (ho : opening.kind = .lparen)
    (hc : closing.kind = .rparen) : Balanced (opening :: (ts ++ [closing])) := by
  have hall : nesting (opening :: (ts ++ [closing])) = 0 := by
    simp [ht.nesting_eq, ho, hc, Terminal.deepens]
  refine ⟨hall, fun front hfront => ?_⟩
  obtain rfl | ⟨more, rfl, hmore⟩ := List.prefix_cons_iff.1 hfront
  · rfl
  · obtain rfl | hinside := List.prefix_concat_iff.1 hmore
    · exact hall.ge
    · exact (ht.nesting_pos ho hinside).le

end Balanced

/-! ## Operators outside parentheses -/

/-- A token among others: what stands before it, and what stands behind it. -/
structure Split where
  before : List Token
  operator : Token
  behind : List Token

namespace Split

/-- The same token with more tokens around. -/
def within (split : Split) (front back : List Token) : Split :=
  ⟨front ++ split.before, split.operator, split.behind ++ back⟩

/-- Every token among some tokens, in order. -/
def all : List Token → List Split
  | [] => []
  | token :: rest => ⟨[], token, rest⟩ :: (all rest).map fun split => split.within [token] []

/-- Whether a token is no sign: only a minus sign can be one, and only where no operand ends. -/
def isBinary (split : Split) : Bool :=
  split.operator.kind != .minus || split.before.getLast?.any (·.kind.endsOperand)

/-- Whether a token stands outside all parentheses. -/
def isOutside (split : Split) : Bool := nesting split.before == 0

theorem all_append (ts us : List Token) :
    all (ts ++ us) = (all ts).map (·.within [] us) ++ (all us).map (·.within ts []) := by
  induction ts with
  | nil => simp [all, within]
  | cons token ts ih => simp [all, ih, within, Function.comp_def]

theorem eq_of_mem_all {split : Split} (h : split ∈ all ts) :
    ts = split.before ++ split.operator :: split.behind := by
  induction ts generalizing split with
  | nil => cases h
  | cons token rest ih =>
    obtain rfl | hrest := List.mem_cons.1 h
    · rfl
    · obtain ⟨inner, hinner, rfl⟩ := List.mem_map.1 hrest
      simpa [within] using ih hinner

end Split

namespace Rule

/-- Whether a token is a binary operator of a rule, outside all parentheses. -/
def splitsAt (rule : Rule) (split : Split) : Bool :=
  rule.joins split.operator.kind && split.isBinary && split.isOutside

/-- The binary operators of a rule that stand outside all parentheses, in order. -/
def splits (rule : Rule) (tokens : List Token) : List Split :=
  (Split.all tokens).filter rule.splitsAt

/-- Tokens in front do not matter if they leave no parenthesis open and end in an operator. -/
theorem splitsAt_within (rule : Rule) (split : Split) {front : List Token} (back : List Token)
    (hf : nesting front = 0) (hl : front.getLast?.any (·.kind.endsOperand) = false) :
    rule.splitsAt (split.within front back) = rule.splitsAt split := by
  have hlast : (front ++ split.before).getLast?.any (·.kind.endsOperand) =
      split.before.getLast?.any (·.kind.endsOperand) := by
    rw [List.getLast?_append]
    cases split.before.getLast? with
    | none => exact hl
    | some last => rfl
  simp [splitsAt, Split.isBinary, Split.isOutside, Split.within, hf, hlast, -List.getLast?_append]

theorem filter_within (rule : Rule) (splits : List Split) {front : List Token} (back : List Token)
    (hf : nesting front = 0) (hl : front.getLast?.any (·.kind.endsOperand) = false) :
    (splits.map (·.within front back)).filter rule.splitsAt =
      (splits.filter rule.splitsAt).map (·.within front back) := by
  rw [List.filter_map]
  congr 2
  funext split
  exact splitsAt_within rule split back hf hl

theorem exists_joins_of_splits {rule : Rule} (h : rule.splits ts ≠ []) :
    ∃ kind, rule.joins kind := by
  obtain ⟨split, hs⟩ := List.exists_mem_of_ne_nil _ h
  have htop := (List.mem_filter.1 hs).2
  simp only [splitsAt, Bool.and_eq_true] at htop
  exact ⟨_, htop.1.1⟩

theorem splits_singleton (rule : Rule) (h : rule.joins token.kind = false) :
    rule.splits [token] = [] := by
  simp [splits, Split.all, splitsAt, h]

/-- The operators of an operand behind a minus sign are those of the operand. -/
theorem splits_negation (rule : Rule) (h : token.kind = .minus) (us : List Token) :
    rule.splits (token :: us) = (rule.splits us).map (·.within [token] []) := by
  have hsign : rule.splitsAt ⟨[], token, us⟩ = false := by
    simp [splitsAt, Split.isBinary, h]
  have hends : token.kind.endsOperand = false := by rw [h]; rfl
  rw [splits, Split.all, List.filter_cons_of_neg (by simp [hsign])]
  exact filter_within rule _ [] (by simp [h, Terminal.deepens]) (by simp [hends])

/-- The operators of two operands and the operator between them. -/
theorem splits_infix (rule : Rule) {other : Rule} (hj : other.joins token.kind)
    (ht : nesting ts = 0) (hl : ts.getLast?.any (·.kind.endsOperand)) (us : List Token) :
    rule.splits (ts ++ token :: us) = (rule.splits ts).map (·.within [] (token :: us)) ++
      ((if rule.joins token.kind then [⟨ts, token, us⟩] else []) ++
        (rule.splits us).map (·.within (ts ++ [token]) [])) := by
  have hhere : rule.splitsAt ⟨ts, token, us⟩ = rule.joins token.kind := by
    simp [splitsAt, Split.isBinary, Split.isOutside, ht, hl]
  have hmap : ((Split.all us).map (·.within [token] [])).map (·.within ts []) =
      (Split.all us).map (·.within (ts ++ [token]) []) := by
    simp [Split.within, Function.comp_def]
  have hall : Split.all (ts ++ token :: us) = (Split.all ts).map (·.within [] (token :: us)) ++
      ([⟨ts, token, us⟩] ++ (Split.all us).map (·.within (ts ++ [token]) [])) := by
    rw [Split.all_append, Split.all, List.map_cons, hmap]
    simp [Split.within]
  rw [splits, hall, List.filter_append, List.filter_append, List.filter_singleton, hhere,
    Bool.cond_eq_ite, filter_within rule _ (token :: us) nesting_nil rfl,
    filter_within rule _ [] (by simp [ht, deepens_of_joins hj])
      (by simp [endsOperand_of_joins hj])]
  rfl

theorem splits_group (rule : Rule) {opening closing : Token} (h : Balanced ts)
    (ho : opening.kind = .lparen) (hc : closing.kind = .rparen) :
    rule.splits (opening :: (ts ++ [closing])) = [] := by
  rw [splits, List.filter_eq_nil_iff]
  intro split hsplit htop
  simp only [splitsAt, Split.isOutside, Bool.and_eq_true, beq_iff_eq] at htop
  obtain ⟨⟨hjoins, -⟩, houtside⟩ := htop
  have hparts := Split.eq_of_mem_all hsplit
  obtain ⟨before, operator, behind⟩ := split
  cases before with
  | nil =>
    obtain ⟨rfl, -⟩ := List.cons.inj hparts
    rw [ho] at hjoins
    cases rule <;> cases hjoins
  | cons first front =>
    obtain ⟨rfl, hrest⟩ := List.cons.inj hparts
    obtain rfl | ⟨behind, last, rfl⟩ := behind.eq_nil_or_concat'
    · obtain ⟨-, hlast⟩ := List.append_inj' hrest rfl
      cases hlast
      rw [hc] at hjoins
      cases rule <;> cases hjoins
    · have hinside : ts = front ++ operator :: behind := by
        have hrest' : ts ++ [closing] = front ++ operator :: behind ++ [last] := by
          simpa using hrest
        exact (List.append_inj' hrest' rfl).1
      have hpos := h.nesting_pos ho (List.prefix_iff_exists_append_eq.2 ⟨_, hinside.symm⟩)
      exact hpos.ne' houtside

end Rule

/-! ## What a phrase shows -/

/-- What the tokens of a phrase of a level show: the parentheses are balanced, an operand ends at
the end, outside parentheses there are only operators of the level and of tighter ones, and below
the level of signs there is none in front. -/
structure Level.Shows (l : Level) (ts : List Token) : Prop where
  balanced : Balanced ts
  ends : ts.getLast?.any (·.kind.endsOperand)
  tight : ∀ rule : Rule, rule.splits ts ≠ [] → rule.level.rank ≤ l.rank
  signless : l.rank < Level.unary.rank → ∀ first ∈ ts.head?, first.kind ≠ .minus

namespace Level.Shows

variable {l m : Level}

theorem ne_nil (h : l.Shows ts) : ts ≠ [] := by
  rintro rfl
  cases h.ends

theorem loosen (h : m.Shows ts) (hm : m.rank ≤ l.rank) : l.Shows ts :=
  ⟨h.balanced, h.ends, fun rule hs => (h.tight rule hs).trans hm,
    fun hl => h.signless (hm.trans_lt hl)⟩

/-- The operators of a looser rule do not show. -/
theorem splits_eq_nil (h : l.Shows ts) (rule : Rule) (hr : l.rank < rule.level.rank) :
    rule.splits ts = [] := by
  by_contra hs
  exact absurd (h.tight rule hs) (by omega)

theorem leaf (hk : token.kind.isOperand) : Level.atom.Shows [token] := by
  refine ⟨balanced_singleton ?_, ?_, fun rule hs => ?_, fun _ first hf => ?_⟩
  · cases h : token.kind <;> simp_all [Terminal.isOperand, Terminal.deepens]
  · simp [Terminal.endsOperand, hk]
  · refine absurd (rule.splits_singleton ?_) hs
    cases h : token.kind <;> simp_all [Terminal.isOperand, Rule.joins]
  · cases hf
    intro hm
    rw [hm] at hk
    cases hk

theorem group {opening closing : Token} (h : l.Shows ts) (ho : opening.kind = .lparen)
    (hc : closing.kind = .rparen) : Level.atom.Shows (opening :: (ts ++ [closing])) := by
  refine ⟨h.balanced.group ho hc, ?_, fun rule hs => ?_, fun _ first hf => ?_⟩
  · rw [← List.cons_append, List.getLast?_concat, Option.any_some, hc]
    rfl
  · exact absurd (rule.splits_group h.balanced ho hc) hs
  · cases hf
    rw [ho]
    decide

theorem negation (hk : token.kind = .minus) (h : Level.unary.Shows ts) :
    Level.unary.Shows (token :: ts) := by
  refine ⟨(balanced_singleton (by rw [hk]; rfl)).append h.balanced, ?_, fun rule hs => ?_,
    fun hl => absurd hl (lt_irrefl _)⟩
  · rw [List.getLast?_cons_of_ne_nil h.ne_nil]
    exact h.ends
  · rw [rule.splits_negation hk] at hs
    exact h.tight rule fun hnil => hs (by rw [hnil, List.map_nil])

theorem binary {rule : Rule} (hj : rule.joins token.kind) (ht : rule.left.Shows ts)
    (hu : rule.right.Shows us) : rule.level.Shows (ts ++ token :: us) := by
  refine ⟨?_, ?_, fun other hs => ?_, fun hl => ?_⟩
  · exact ht.balanced.append
      ((balanced_singleton (Rule.deepens_of_joins hj)).append hu.balanced)
  · rw [List.getLast?_append_of_ne_nil _ (List.cons_ne_nil _ _),
      List.getLast?_cons_of_ne_nil hu.ne_nil]
    exact hu.ends
  · rw [other.splits_infix hj ht.balanced.nesting_eq ht.ends] at hs
    simp only [ne_eq, List.append_eq_nil_iff, List.map_eq_nil_iff, not_and_or] at hs
    obtain hs | hs | hs := hs
    · exact (ht.tight other hs).trans (Rule.left_rank_le hj)
    · have hother : other.joins token.kind := by
        by_contra hnone
        exact hs (if_neg hnone)
      rw [Rule.eq_of_joins hother hj]
    · obtain ⟨kind, hkind⟩ := Rule.exists_joins_of_splits hs
      exact Rule.rank_le_of_right hj hkind (hu.tight other hs)
  · -- only powers are tighter than signs, and an atom is in front of them
    have hleft : rule.left.rank < Level.unary.rank := by
      cases rule <;> first | decide | exact absurd hl (by decide)
    rw [List.head?_append_of_ne_nil _ ht.ne_nil]
    exact ht.signless hleft

end Level.Shows

theorem Derivation.shows (l : Level) (d : Derivation (.rule l.nonterminal)) : l.Shows d.tokens := by
  induction l, d using Derivation.level_induction with
  | leaf token hk => exact .leaf hk
  | group opening closing ho hc d ih => exact ih.group ho hc
  | ofAtom d ih | ofPow d ih | ofUnary d ih | ofMul d ih | ofAdd d ih => exact ih.loosen (by decide)
  | power base caret hk exponent ihb ihe =>
    exact .binary (show Rule.pow.joins caret.kind by rw [hk]; rfl) ihb ihe
  | negative minus hk d ih => exact ih.negation hk
  | product left operator hk right ihl ihr =>
    rw [tokens_product]
    exact .binary (show Rule.mul.joins operator.kind by rwa [Rule.joins_mul]) ihl ihr
  | sum left operator hk right ihl ihr =>
    rw [tokens_sum]
    exact .binary (show Rule.add.joins operator.kind by rwa [Rule.joins_add]) ihl ihr
  | comparison left operator hk right ihl ihr =>
    exact .binary (show Rule.compare.joins operator.kind by rw [hk]; rfl) ihl ihr

/-! ## Expressions -/

/-- Whether some tokens, parsed by themselves, are an expression with the given tree: there is no
separator, equals sign or word `print` among them, and the tree is the only statement. -/
def ReadsAs (engine : Engine) (tokens : List Token) (tree : Node) : Prop :=
  (∀ token ∈ tokens, token.kind.inExpression) ∧ ∃ position,
    Scan.parse engine ⟨tokens, none⟩ = .ok (.rule Rule.program.label [tree] position)

namespace Derivation

variable {engine : Engine} {tree : Node}

/-- A phrase leaves an operand, and is an expression by itself. -/
theorem exists_readsAs (engine : Engine) (l : Level) (d : Derivation (.rule l.nonterminal)) :
    ∃ x : Operand, d.part = x.part ∧ x.Placed ∧ ReadsAs engine d.tokens x.node := by
  obtain ⟨x, hd, hx, -⟩ := exists_operand (P := fun _ _ => True) (fun _ => trivial)
    (fun _ _ _ => trivial) (fun _ _ _ => trivial) (fun _ _ => trivial) l d
  have hreads : l.Reads d.tokens x := ⟨d, rfl, hd, hx⟩
  obtain ⟨e, he, hpart, -⟩ := hreads.loosen (m := .expr) (by cases l <;> decide)
  refine ⟨x, hd, hx, inExpression_of_mem l d, some x.start.position, ?_⟩
  rw [Scan.parse_eq_ok]
  refine ⟨rfl, Reading.derivation_iff.1 ⟨program .stop (.present (ofExpr e)), he, ?_⟩⟩
  have hstmt : (ofExpr e).part = x.part := part_inlined rfl _ hpart hx
  rw [part_program]
  simp [part, hstmt, Part.wrap, Nonterminal.isInlined, Operand.part, Nonterminal.label, Rule.label]

/-- A level in place of a looser one leaves the same. -/
theorem part_loosened (l : Level) {n : Nonterminal} (hn : n.isInlined)
    (h : ⟨.rule l.nonterminal, none⟩ ∈ n.productions) (d : Derivation (.rule l.nonterminal)) :
    (Derivation.rule ⟨.rule l.nonterminal, none⟩ h d).part = d.part := by
  obtain ⟨x, hd, hx, -⟩ := exists_readsAs .lalr l d
  rw [hd]
  exact part_inlined hn h hd hx

/-- An expression is a phrase of the loosest level. -/
theorem exists_of_readsAs (h : ReadsAs engine ts tree) :
    ∃ d : Derivation (.rule .expr), d.tokens = ts ∧ d.part.nodes = [tree] := by
  obtain ⟨hkinds, position, hparse⟩ := h
  obtain ⟨d, rfl, hnodes⟩ := Reading.derivation_iff.2 (Scan.parse_eq_ok.1 hparse).2
  obtain ⟨lines, last, rfl⟩ := d.program_cases
  have hstatements : lines.part.nodes ++ last.part.nodes = [tree] := by
    rw [part_program] at hnodes
    simp only [Part.wrap, Nonterminal.isInlined, List.cons.injEq, Node.rule.injEq,
      and_true] at hnodes
    exact hnodes.2.1
  -- every other program has a token that no expression has
  have absurdKind : ∀ token ∈ (program lines last).tokens, token.kind.inExpression = false →
      False := by
    intro token ht hkind
    rw [hkinds token ht] at hkind
    cases hkind
  cases lines with
  | more line rest =>
    obtain _ | _ | ⟨line, ⟨separator, hk⟩⟩ := line
    exact (absurdKind separator (by simp [tokens]) (by rw [hk]; rfl)).elim
  | stop =>
    cases last with
    | absent => cases hstatements
    | present d =>
      obtain ⟨e, rfl⟩ | ⟨keyword, hk, e, rfl⟩ | ⟨e, rfl⟩ := stmt_cases d
      · obtain ⟨name, equals, hn, he, value, rfl⟩ := e.assign_cases
        exact (absurdKind equals (by simp [tokens]) (by rw [he]; rfl)).elim
      · exact (absurdKind keyword (by simp [tokens]) (by rw [hk]; rfl)).elim
      · refine ⟨e, rfl, ?_⟩
        rw [← part_loosened .expr (n := .stmt) rfl (by decide) e]
        exact hstatements

end Derivation

/-! ## The outermost operation -/

/-- What an expression is at its outside. -/
inductive Outermost where
  | binary (rule : Rule) (split : Split)
  | negation (minus : Token) (rest : List Token)
  | token (token : Token)
  | group (inner : List Token)

namespace Outermost

/-- A minus sign in front. -/
def sign? : List Token → Option Outermost
  | [] => none
  | first :: rest => if first.kind = .minus then some (.negation first rest) else none

theorem sign?_eq_none (h : ∀ first ∈ ts.head?, first.kind ≠ .minus) : sign? ts = none := by
  cases ts with
  | nil => rfl
  | cons first rest => exact if_neg (h first rfl)

/-- A single token, or parentheses around all others. -/
def operand? : List Token → Option Outermost
  | [] => none
  | first :: rest =>
    match rest.getLast? with
    | none => some (.token first)
    | some last =>
      if first.kind = .lparen ∧ last.kind = .rparen then some (.group rest.dropLast) else none

/-- The outermost operation of an expression: the only comparison, or the last sum, or the last
product, or a minus sign in front, or the first power. -/
def ofTokens? (tokens : List Token) : Option Outermost :=
  match Rule.compare.splits tokens with
  | _ :: _ :: _ => none
  | [split] => some (.binary .compare split)
  | [] =>
    ((Rule.add.splits tokens).getLast?.map (.binary .add)).or <|
    ((Rule.mul.splits tokens).getLast?.map (.binary .mul)).or <|
    (sign? tokens).or <|
    ((Rule.pow.splits tokens).head?.map (.binary .pow)).or <|
    operand? tokens

/-- Whether a tree is that of an operation, with the trees of its parts as operands. -/
def Makes (engine : Engine) (tree : Node) : Outermost → Prop
  | .binary rule split => ∃ left right position,
    tree = .rule rule.label [left, split.operator.leaf, right] position ∧
      ReadsAs engine split.before left ∧ ReadsAs engine split.behind right
  | .negation minus rest => ∃ operand position,
    tree = .rule Rule.neg.label [minus.leaf, operand] position ∧ ReadsAs engine rest operand
  | .token t => tree = t.leaf
  | .group inner => ReadsAs engine inner tree

variable {engine : Engine} {tree : Node}

/-- An operator between phrases of the levels that its rule demands is the outermost. -/
theorem ofTokens?_binary {rule : Rule} (hj : rule.joins token.kind) (ht : rule.left.Shows ts)
    (hu : rule.right.Shows us) :
    ofTokens? (ts ++ token :: us) = some (.binary rule ⟨ts, token, us⟩) := by
  have hshows := Level.Shows.binary hj ht hu
  have hsplits := rule.splits_infix hj ht.balanced.nesting_eq ht.ends us
  rw [if_pos hj] at hsplits
  cases rule with
  | compare =>
    -- neither side has another comparison
    rw [ht.splits_eq_nil .compare (by decide), hu.splits_eq_nil .compare (by decide)] at hsplits
    simp [ofTokens?, hsplits]
  | add =>
    rw [hu.splits_eq_nil .add (by decide)] at hsplits
    simp [ofTokens?, hshows.splits_eq_nil .compare (by decide), hsplits]
  | mul =>
    rw [hu.splits_eq_nil .mul (by decide)] at hsplits
    simp [ofTokens?, hshows.splits_eq_nil .compare (by decide),
      hshows.splits_eq_nil .add (by decide), hsplits]
  | pow =>
    rw [ht.splits_eq_nil .pow (by decide)] at hsplits
    have hsign : sign? (ts ++ token :: us) = none := sign?_eq_none (hshows.signless (by decide))
    simp [ofTokens?, hshows.splits_eq_nil .compare (by decide),
      hshows.splits_eq_nil .add (by decide), hshows.splits_eq_nil .mul (by decide), hsign, hsplits]
  | program | assign | print | neg => cases hj

/-- Nothing binds tighter than an atom. -/
theorem ofTokens?_atom (h : Level.atom.Shows ts) : ofTokens? ts = operand? ts := by
  simp [ofTokens?, h.splits_eq_nil .compare (by decide), h.splits_eq_nil .add (by decide),
    h.splits_eq_nil .mul (by decide), h.splits_eq_nil .pow (by decide),
    sign?_eq_none (h.signless (by decide))]

theorem ofTokens?_negation (hk : token.kind = .minus) (h : Level.unary.Shows ts) :
    ofTokens? (token :: ts) = some (.negation token ts) := by
  have hshows := Level.Shows.negation hk h
  simp [ofTokens?, hshows.splits_eq_nil .compare (by decide),
    hshows.splits_eq_nil .add (by decide), hshows.splits_eq_nil .mul (by decide), sign?, hk]

/-- A derivation whose production is an operator between two operands. -/
theorem exists_binary {p : Pattern} {d : Derivation p} (rule : Rule) (hj : rule.joins token.kind)
    (left : Derivation (.rule rule.left.nonterminal))
    (right : Derivation (.rule rule.right.nonterminal))
    (htokens : d.tokens = left.tokens ++ token :: right.tokens)
    (hpart : ∀ {x y : Operand}, left.part = x.part → right.part = y.part →
      d.part = (Operand.binary rule x token y).part) (hd : d.part.nodes = [tree]) :
    ∃ o, ofTokens? d.tokens = some o ∧ o.Makes engine tree := by
  obtain ⟨x, hx, -, hleft⟩ := left.exists_readsAs engine rule.left
  obtain ⟨y, hy, -, hright⟩ := right.exists_readsAs engine rule.right
  rw [hpart hx hy] at hd
  cases hd
  rw [htokens]
  exact ⟨_, ofTokens?_binary hj (left.shows _) (right.shows _), x.node, y.node, _, rfl, hleft,
    hright⟩

theorem exists_of_derivation (l : Level) (d : Derivation (.rule l.nonterminal))
    (hd : d.part.nodes = [tree]) : ∃ o, ofTokens? d.tokens = some o ∧ o.Makes engine tree := by
  -- one case for each production; those that only pass to a tighter level keep tokens and nodes
  induction l, d using Derivation.level_induction with
  | leaf token hk =>
    rw [Derivation.part_leaf] at hd
    cases hd
    exact ⟨.token token, ofTokens?_atom (.leaf hk), rfl⟩
  | group opening closing ho hc d ih =>
    obtain ⟨x, hx, hplaced, hreads⟩ := d.exists_readsAs engine .expr
    rw [Derivation.part_group opening closing ho hc hx hplaced] at hd
    have htree : x.node = tree := by
      rw [← Operand.node_enclose opening.mark]
      exact List.singleton_inj.1 hd
    refine ⟨.group d.tokens, ?_, htree ▸ hreads⟩
    rw [Derivation.tokens_group, ofTokens?_atom ((d.shows .expr).group ho hc)]
    simp [operand?, ho, hc]
  | ofAtom d ih | ofPow d ih | ofUnary d ih | ofMul d ih | ofAdd d ih =>
    refine ih ?_
    rw [← Derivation.part_loosened]
    · exact hd
    · rfl
  | power base caret hk exponent _ _ =>
    exact exists_binary .pow (by rw [hk]; rfl) base exponent rfl (Derivation.part_power caret hk) hd
  | negative minus hk d ih =>
    obtain ⟨x, hx, -, hreads⟩ := d.exists_readsAs engine .unary
    rw [Derivation.part_negative minus hk hx] at hd
    cases hd
    exact ⟨_, ofTokens?_negation hk (d.shows .unary), x.node, _, rfl, hreads⟩
  | product left operator hk right _ _ =>
    exact exists_binary .mul (by rwa [Rule.joins_mul]) left right
      (Derivation.tokens_product left operator hk right) (Derivation.part_product operator hk) hd
  | sum left operator hk right _ _ =>
    exact exists_binary .add (by rwa [Rule.joins_add]) left right
      (Derivation.tokens_sum left operator hk right) (Derivation.part_sum operator hk) hd
  | comparison left operator hk right _ _ =>
    exact exists_binary .compare (by rw [hk]; rfl) left right rfl
      (Derivation.part_comparison operator hk) hd

end Outermost

/-- Precedence and associativity, read off the tokens: an expression is split at its only
comparison, or at the last sign of a sum, or at the last sign of a product, or it is the negation of
what stands behind its first token, or it is split at its first caret, or it is one token or stands
in parentheses.  The parts are expressions, and their trees are the operands. -/
theorem outermost_of_readsAs {engine : Engine} {tokens : List Token} {tree : Node}
    (h : ReadsAs engine tokens tree) :
    ∃ o, Outermost.ofTokens? tokens = some o ∧ o.Makes engine tree := by
  obtain ⟨d, rfl, hd⟩ := Derivation.exists_of_readsAs h
  exact Outermost.exists_of_derivation .expr d hd

/-- The tokens of `-a^2-b--c`. -/
def signedTokens : List Token :=
  [⟨.minus, "-", ⟨1, 1⟩⟩, ⟨.name, "a", ⟨1, 2⟩⟩, ⟨.caret, "^", ⟨1, 3⟩⟩, ⟨.number, "2", ⟨1, 4⟩⟩,
    ⟨.minus, "-", ⟨1, 5⟩⟩, ⟨.name, "b", ⟨1, 6⟩⟩, ⟨.minus, "-", ⟨1, 7⟩⟩, ⟨.minus, "-", ⟨1, 8⟩⟩,
    ⟨.name, "c", ⟨1, 9⟩⟩]

/-- The difference of a difference and a negation. -/
def signedTree : Node :=
  .rule Rule.add.label
    [.rule Rule.add.label
      [.rule Rule.neg.label
        [.token Terminal.minus.label "-" (some ⟨1, some 1⟩),
          .rule Rule.pow.label
            [.token Terminal.name.label "a" (some ⟨1, some 2⟩),
              .token Terminal.caret.label "^" (some ⟨1, some 3⟩),
              .token Terminal.number.label "2" (some ⟨1, some 4⟩)] (some ⟨1, some 2⟩)]
          (some ⟨1, some 1⟩),
        .token Terminal.minus.label "-" (some ⟨1, some 5⟩),
        .token Terminal.name.label "b" (some ⟨1, some 6⟩)] (some ⟨1, some 1⟩),
      .token Terminal.minus.label "-" (some ⟨1, some 7⟩),
      .rule Rule.neg.label
        [.token Terminal.minus.label "-" (some ⟨1, some 8⟩),
          .token Terminal.name.label "c" (some ⟨1, some 9⟩)] (some ⟨1, some 8⟩)]
    (some ⟨1, some 1⟩)

theorem outermost_signedTokens :
    let minus : Split :=
      ⟨signedTokens.take 6, ⟨.minus, "-", ⟨1, 7⟩⟩, signedTokens.drop 7⟩
    ReadsAs .lalr signedTokens signedTree ∧
      Outermost.ofTokens? signedTokens = some (.binary .add minus) ∧
      (Outermost.binary .add minus).Makes .lalr signedTree := by
  intro minus
  have hreads : ReadsAs .lalr signedTokens signedTree := ⟨by decide, some ⟨1, some 1⟩, rfl⟩
  have houter : Outermost.ofTokens? signedTokens = some (.binary .add minus) := rfl
  obtain ⟨o, ho, hmakes⟩ := outermost_of_readsAs hreads
  rw [houter] at ho
  cases ho
  exact ⟨hreads, houter, hmakes⟩

end Reckon
