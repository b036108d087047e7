import Reckon.Proofs.Phrase

/-!
# The shape of trees

Which trees are expressions, statements and programs, whatever the texts of their tokens and the
positions in them have to satisfy.  The tree that a derivation leaves has this shape
(`Derivation.isProgram`).
-/

namespace Reckon

/-- Whether the operators of a terminal stand between the operands of a rule. -/
def Rule.joins : Rule → Terminal → Bool
  | .compare, .comparison => true
  | .add, .plus | .add, .minus => true
  | .mul, .star | .mul, .slash | .mul, .percent => true
  | .pow, .caret => true
  | _, _ => false

namespace Rule

theorem joins_compare (kind : Terminal) : Rule.compare.joins kind = (kind == .comparison) := by
  cases kind <;> rfl

theorem joins_add (kind : Terminal) : Rule.add.joins kind = kind.isSum := by
  cases kind <;> rfl

theorem joins_mul (kind : Terminal) : Rule.mul.joins kind = kind.isProduct := by
  cases kind <;> rfl

theorem joins_pow (kind : Terminal) : Rule.pow.joins kind = (kind == .caret) := by
  cases kind <;> rfl

end Rule

namespace Node

section

variable (texts : Terminal → String → Prop) (places : Option Position → Prop)

/-- An expression. -/
inductive IsExpr : Node → Prop
  | token {kind : Terminal} {text : String} {position : Option Position} (operand : kind.isOperand)
      (ht : texts kind text) (hp : places position) : IsExpr (.token kind.label text position)
  | binary {rule : Rule} {kind : Terminal} {left right : Node} {text : String}
      {place position : Option Position} (joins : rule.joins kind) (hl : IsExpr left)
      (ht : texts kind text) (ho : places place) (hr : IsExpr right) (hp : places position) :
      IsExpr (.rule rule.label [left, .token kind.label text place, right] position)
  | neg {operand : Node} {text : String} {place position : Option Position}
      (ht : texts .minus text) (ho : places place) (hx : IsExpr operand) (hp : places position) :
      IsExpr (.rule Rule.neg.label [.token Terminal.minus.label text place, operand] position)

/-- An expression or an assignment. -/
inductive IsValue : Node → Prop
  | expr {node : Node} (h : IsExpr texts places node) : IsValue node
  | assign {name : String} {value : Node} {place position : Option Position}
      (ht : texts .name name) (ho : places place) (hv : IsValue value) (hp : places position) :
      IsValue (.rule Rule.assign.label [.token Terminal.name.label name place, value] position)

/-- A statement. -/
inductive IsStatement : Node → Prop
  | value {node : Node} (h : IsValue texts places node) : IsStatement node
  | print {node : Node} {position : Option Position} (hx : IsExpr texts places node)
      (hp : places position) : IsStatement (.rule Rule.print.label [node] position)

/-- A program. -/
inductive IsProgram : Node → Prop
  | statements {statements : List Node} {position : Option Position}
      (h : ∀ statement ∈ statements, IsStatement texts places statement) :
      IsProgram (.rule Rule.program.label statements position)

end

end Node

/-- The position of some mark. -/
def IsMarked (position : Option Position) : Prop := ∃ mark : Mark, position = some mark.position

namespace Operand

variable {texts : Terminal → String → Prop} {x y : Operand} {token : Token}

theorem node_enclose (opening : Mark) (x : Operand) : (x.enclose opening).node = x.node := by
  obtain ⟨_ | _ | _, start⟩ := x <;> rfl

theorem isExpr_ofToken (hk : token.kind.isOperand) (ht : texts token.kind token.text) :
    (ofToken token).node.IsExpr texts IsMarked :=
  .token hk ht ⟨token.mark, rfl⟩

theorem isExpr_binary {rule : Rule} (hj : rule.joins token.kind)
    (ht : texts token.kind token.text) (hx : x.node.IsExpr texts IsMarked)
    (hy : y.node.IsExpr texts IsMarked) :
    (binary rule x token y).node.IsExpr texts IsMarked :=
  .binary hj hx ht ⟨token.mark, rfl⟩ hy ⟨x.start, rfl⟩

theorem isExpr_negation (hk : token.kind = .minus) (ht : texts token.kind token.text)
    (hx : x.node.IsExpr texts IsMarked) : (negation token x).node.IsExpr texts IsMarked := by
  obtain ⟨kind, text, mark⟩ := token
  subst hk
  exact .neg ht ⟨mark, rfl⟩ hx ⟨mark, rfl⟩

end Operand

namespace Derivation

variable {texts : Terminal → String → Prop}

/-- What holds of tokens and the node they leave, for single tokens, groups, negations and all that
an operator joins, holds of every phrase. -/
theorem exists_operand {P : List Token → Node → Prop}
    (leaf : ∀ {token : Token}, token.kind.isOperand → P [token] (Operand.ofToken token).node)
    (group : ∀ {opening closing : Token} {ts : List Token} {x : Operand}, opening.kind = .lparen →
      closing.kind = .rparen → P ts x.node → P (opening :: (ts ++ [closing])) x.node)
    (binary : ∀ {rule : Rule} {operator : Token} {ts us : List Token} {x y : Operand},
      rule.joins operator.kind → P ts x.node → P us y.node →
        P (ts ++ operator :: us) (Operand.binary rule x operator y).node)
    (negation : ∀ {minus : Token} {ts : List Token} {x : Operand}, minus.kind = .minus →
      P ts x.node → P (minus :: ts) (Operand.negation minus x).node)
    (l : Level) (d : Derivation (.rule l.nonterminal)) :
    ∃ x : Operand, d.part = x.part ∧ x.Placed ∧ P d.tokens x.node := by
  induction l, d using Derivation.level_induction with
  | leaf token hk =>
    exact ⟨.ofToken token, part_leaf token hk, Operand.placed_ofToken token, leaf hk⟩
  | group opening closing ho hc d ih =>
    obtain ⟨x, hd, hx, h⟩ := ih
    refine ⟨x.enclose opening.mark, part_group _ _ ho hc hd hx, hx.enclose _, ?_⟩
    rw [Operand.node_enclose, tokens_group]
    exact group ho hc h
  | ofAtom d ih | ofPow d ih | ofUnary d ih | ofMul d ih | ofAdd d ih =>
    obtain ⟨x, hd, hx, h⟩ := ih
    exact ⟨x, part_inlined rfl _ hd hx, hx, h⟩
  | power base caret hk exponent ihb ihe =>
    obtain ⟨x, hb, -, hx⟩ := ihb
    obtain ⟨y, he, -, hy⟩ := ihe
    exact ⟨.binary .pow x caret y, part_power _ hk hb he, Operand.placed_ofRule ..,
      binary (by rw [hk]; rfl) hx hy⟩
  | negative minus hk d ih =>
    obtain ⟨x, hd, -, hx⟩ := ih
    exact ⟨.negation minus x, part_negative _ hk hd, Operand.placed_ofRule .., negation hk hx⟩
  | product left operator hk right ihl ihr =>
    obtain ⟨x, hl, -, hx⟩ := ihl
    obtain ⟨y, hr, -, hy⟩ := ihr
    refine ⟨.binary .mul x operator y, part_product _ hk hl hr, Operand.placed_ofRule .., ?_⟩
    rw [tokens_product]
    exact binary (by rwa [Rule.joins_mul]) hx hy
  | sum left operator hk right ihl ihr =>
    obtain ⟨x, hl, -, hx⟩ := ihl
    obtain ⟨y, hr, -, hy⟩ := ihr
    refine ⟨.binary .add x operator y, part_sum _ hk hl hr, Operand.placed_ofRule .., ?_⟩
    rw [tokens_sum]
    exact binary (by rwa [Rule.joins_add]) hx hy
  | comparison left operator hk right ihl ihr =>
    obtain ⟨x, hl, -, hx⟩ := ihl
    obtain ⟨y, hr, -, hy⟩ := ihr
    exact ⟨.binary .compare x operator y, part_comparison _ hk hl hr, Operand.placed_ofRule ..,
      binary (by rw [hk]; rfl) hx hy⟩

/-- A phrase leaves an expression. -/
theorem exists_isExpr (l : Level) (d : Derivation (.rule l.nonterminal))
    (h : ∀ token ∈ d.tokens, texts token.kind token.text) :
    ∃ x : Operand, d.part = x.part ∧ x.Placed ∧ x.node.IsExpr texts IsMarked := by
  obtain ⟨x, hd, hx, hexpr⟩ : ∃ x : Operand, d.part = x.part ∧ x.Placed ∧
      ((∀ token ∈ d.tokens, texts token.kind token.text) → x.node.IsExpr texts IsMarked) := by
    refine exists_operand (P := fun ts node =>
      (∀ token ∈ ts, texts token.kind token.text) → node.IsExpr texts IsMarked)
      ?leaf ?group ?binary ?negation l d
    case leaf =>
      intro token hk h
      exact Operand.isExpr_ofToken hk (h token (by simp))
    case group =>
      intro opening closing ts x _ _ hx h
      rw [List.forall_mem_cons, List.forall_mem_append] at h
      exact hx h.2.1
    case binary =>
      intro rule operator ts us x y hj hx hy h
      rw [List.forall_mem_append, List.forall_mem_cons] at h
      exact Operand.isExpr_binary hj h.2.1 (hx h.1) (hy h.2.2)
    case negation =>
      intro minus ts x hk hx h
      rw [List.forall_mem_cons] at h
      exact Operand.isExpr_negation hk h.1 (hx h.2)
  exact ⟨x, hd, hx, hexpr h⟩

/-- The node of an assignment with a given value. -/
theorem isValue_assignment {name : Token} {x : Operand} (hn : name.kind = .name)
    (ht : texts name.kind name.text) (hx : x.node.IsValue texts IsMarked) :
    (Operand.ofRule .assign [name.leaf, x.node] name.mark).node.IsValue texts IsMarked := by
  obtain ⟨kind, text, mark⟩ := name
  subst hn
  exact .assign ht ⟨mark, rfl⟩ hx ⟨mark, rfl⟩

theorem exists_isValue (d : Derivation (.rule .assign))
    (h : ∀ token ∈ d.tokens, texts token.kind token.text) :
    ∃ x : Operand, d.part = x.part ∧ x.Placed ∧ x.node.IsValue texts IsMarked := by
  induction d using assign_induction with
  | last name equals hn he value =>
    rw [tokens_assignment, List.forall_mem_cons, List.forall_mem_cons] at h
    obtain ⟨x, hd, -, hx⟩ := exists_isExpr .expr value h.2.2
    exact ⟨_, part_assignment hn he hd, Operand.placed_ofRule ..,
      isValue_assignment hn h.1 (.expr hx)⟩
  | chain name equals hn he value ih =>
    rw [tokens_assignment, List.forall_mem_cons, List.forall_mem_cons] at h
    obtain ⟨x, hd, -, hx⟩ := ih h.2.2
    exact ⟨_, part_assignment hn he hd, Operand.placed_ofRule .., isValue_assignment hn h.1 hx⟩

theorem exists_isStatement (d : Derivation (.rule .stmt))
    (h : ∀ token ∈ d.tokens, texts token.kind token.text) :
    ∃ x : Operand, d.part = x.part ∧ x.node.IsStatement texts IsMarked := by
  obtain ⟨e, rfl⟩ | ⟨keyword, hk, e, rfl⟩ | ⟨e, rfl⟩ := stmt_cases d
  · obtain ⟨x, hd, hx, hvalue⟩ := exists_isValue e h
    exact ⟨x, part_inlined rfl _ hd hx, .value hvalue⟩
  · rw [tokens_ofPrint, tokens_printing, List.forall_mem_cons] at h
    obtain ⟨x, hd, -, hexpr⟩ := exists_isExpr .expr e h.2
    exact ⟨_, part_inlined rfl _ (part_printing hk hd) (Operand.placed_ofRule ..),
      .print hexpr ⟨keyword.mark, rfl⟩⟩
  · obtain ⟨x, hd, hx, hexpr⟩ := exists_isExpr .expr e h
    exact ⟨x, part_inlined rfl _ hd hx, .value (.expr hexpr)⟩

theorem isStatement_of_mem_optional (d : Derivation (.optional (.rule .stmt)))
    (h : ∀ token ∈ d.tokens, texts token.kind token.text) :
    ∀ node ∈ d.part.nodes, node.IsStatement texts IsMarked := by
  cases d with
  | absent => simp [part]
  | present d =>
    obtain ⟨x, hd, hx⟩ := exists_isStatement d h
    simpa [part, hd, Operand.part] using hx

theorem isStatement_of_mem_lines : (d : Derivation Pattern.lines) →
    (∀ token ∈ d.tokens, texts token.kind token.text) →
    ∀ node ∈ d.part.nodes, node.IsStatement texts IsMarked
  | .stop, _ => by simp [part]
  | .more (.seq line (.terminal separator hk)) rest, h => by
    simp only [tokens, List.append_assoc, List.forall_mem_append] at h
    have hline := isStatement_of_mem_optional line h.1
    have hrest := isStatement_of_mem_lines rest h.2.2
    have hnodes : (Derivation.more (.seq line (.terminal separator hk)) rest).part.nodes =
        line.part.nodes ++ rest.part.nodes := by
      simp [part, Part.ofToken, hk, Terminal.isKept]
    rw [hnodes, List.forall_mem_append]
    exact ⟨hline, hrest⟩

/-- A derivation leaves a program, its tokens being the leaves. -/
theorem isProgram (d : Derivation (.rule .program)) {tree : Node} (hd : d.part.nodes = [tree])
    (h : ∀ token ∈ d.tokens, texts token.kind token.text) : tree.IsProgram texts IsMarked := by
  obtain ⟨lines, last, rfl⟩ := program_cases d
  rw [tokens_program, List.forall_mem_append] at h
  have hlines := isStatement_of_mem_lines lines h.1
  have hlast := isStatement_of_mem_optional last h.2
  rw [part_program] at hd
  simp only [Part.wrap, Nonterminal.isInlined, List.cons.injEq, and_true] at hd
  subst hd
  exact .statements (List.forall_mem_append.2 ⟨hlines, hlast⟩)

end Derivation

end Reckon
