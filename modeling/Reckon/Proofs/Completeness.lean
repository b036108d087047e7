import Reckon.Program.Reading
import Reckon.Proofs.Phrase

/-!
# Every derivation is read

Reading the tokens of a derivation succeeds and gives what the derivation leaves in the tree.  For
expressions this is an induction over the levels (`read?_level`): reading a phrase of a level where
an operand is due leaves a frame and a last operand which close, down to that level, to the
operand of the phrase.
-/

namespace Reckon

namespace Phase

/-- The phase after some tokens of one statement. -/
def read? (phase : Phase) : List Token → Option Phase
  | [] => some phase
  | token :: rest => (phase.step? token).bind fun next => next.read? rest

@[simp] theorem read?_nil (phase : Phase) : phase.read? [] = some phase := rfl

@[simp] theorem read?_cons (phase : Phase) (token : Token) (rest : List Token) :
    phase.read? (token :: rest) = (phase.step? token).bind (·.read? rest) := rfl

@[simp] theorem read?_append (phase : Phase) (ts us : List Token) :
    phase.read? (ts ++ us) = (phase.read? ts).bind (·.read? us) := by
  induction ts generalizing phase with
  | nil => rfl
  | cons token rest ih =>
    rw [List.cons_append, read?_cons, read?_cons, Option.bind_assoc]
    exact congrArg _ (funext ih)

/-! ## One token -/

section Step

variable (head : Head) (outer : List (Frame × Mark)) (frame : Frame) (y : Operand) {token : Token}

theorem step?_leaf (h : token.kind.isOperand) :
    (operand head outer frame).step? token =
      some (.operator head outer frame (.ofToken token)) := by
  cases hk : token.kind <;> simp [hk, Terminal.isOperand] at h
  all_goals simp [step?, takeOperand?, hk]

theorem step?_minus (h : token.kind = .minus) :
    (operand head outer frame).step? token =
      some (.operand head outer { frame with tight := .neg token :: frame.tight }) := by
  simp [step?, takeOperand?, h]

theorem step?_opening (h : token.kind = .lparen) :
    (operand head outer frame).step? token =
      some (.operand head ((frame, token.mark) :: outer) {}) := by
  simp [step?, takeOperand?, h]

theorem step?_closing (inner : Frame) (opening : Mark) (h : token.kind = .rparen) :
    (operator head ((inner, opening) :: outer) frame y).step? token =
      some (.operator head outer inner ((frame.close y).enclose opening)) := by
  simp [step?, takeOperator?, h]

theorem step?_caret (h : token.kind = .caret) :
    (operator head outer frame y).step? token =
      some (.operand head outer { frame with tight := .pow y token :: frame.tight }) := by
  simp [step?, takeOperator?, Frame.join?, h]

theorem step?_product (h : token.kind.isProduct) :
    (operator head outer frame y).step? token =
      some (.operand head outer
        { frame with product := some ⟨frame.closeProduct y, token⟩, tight := [] }) := by
  cases hk : token.kind <;> simp [hk, Terminal.isProduct] at h
  all_goals simp [step?, takeOperator?, Frame.join?, hk]

theorem step?_sum (h : token.kind.isSum) :
    (operator head outer frame y).step? token =
      some (.operand head outer
        { frame with sum := some ⟨frame.closeSum y, token⟩, product := none, tight := [] }) := by
  cases hk : token.kind <;> simp [hk, Terminal.isSum] at h
  all_goals simp [step?, takeOperator?, Frame.join?, hk]

theorem step?_comparison (h : token.kind = .comparison) (hf : frame.comparison = none) :
    (operator head outer frame y).step? token =
      some (.operand head outer { comparison := some ⟨frame.closeSum y, token⟩ }) := by
  simp [step?, takeOperator?, Frame.join?, h, hf]

end Step

end Phase

/-! ## Expressions -/

/-- Whether a phrase of a level may start in a frame: nothing that binds as tightly waits in it. -/
def Frame.Admits (frame : Frame) : Level → Prop
  | .atom | .pow | .unary => True
  | .mul => frame.product = none ∧ frame.tight = []
  | .add => frame.sum = none ∧ frame.product = none ∧ frame.tight = []
  | .expr => frame = {}

/-- Whether a frame closes around `y`, down to a level, as another does around `x`, and is the
same above it. -/
def Frame.Closes (frame : Frame) (y : Operand) (before : Frame) (x : Operand) : Level → Prop
  | .atom => frame = before ∧ y = x
  | .pow | .unary =>
    frame.comparison = before.comparison ∧ frame.sum = before.sum ∧
      frame.product = before.product ∧ frame.closeTight y = before.closeTight x
  | .mul =>
    frame.comparison = before.comparison ∧ frame.sum = before.sum ∧
      frame.closeProduct y = before.closeProduct x
  | .add => frame.comparison = before.comparison ∧ frame.closeSum y = before.closeSum x
  | .expr => frame.close y = before.close x

theorem Frame.closeProduct_of_admits {frame : Frame} {x : Operand} (h : frame.Admits .mul) :
    frame.closeProduct x = x := by
  simp [closeProduct, closeTight, h.1, h.2, Left.close]

theorem Frame.closeSum_of_admits {frame : Frame} {x : Operand} (h : frame.Admits .add) :
    frame.closeSum x = x := by
  simp [closeSum, h.1, Left.close, closeProduct_of_admits h.2]

/-- Reading a phrase of a level where an operand is due. -/
theorem Phase.read?_level (l : Level) (d : Derivation (.rule l.nonterminal)) :
    ∃ x : Operand, x.Placed ∧ d.part = x.part ∧ ∀ head outer frame, frame.Admits l →
      ∃ after y, (Phase.operand head outer frame).read? d.tokens =
        some (.operator head outer after y) ∧ after.Closes y frame x l := by
  induction l, d using Derivation.level_induction with
  | leaf token h =>
    refine ⟨.ofToken token, Operand.placed_ofToken token, Derivation.part_leaf token h, ?_⟩
    intro head outer frame _
    refine ⟨frame, .ofToken token, ?_, rfl, rfl⟩
    simp [step?_leaf _ _ _ h]
  | group opening closing ho hc d ih =>
    obtain ⟨x, hx, hd, ih⟩ := ih
    refine ⟨x.enclose opening.mark, hx.enclose _, Derivation.part_group _ _ ho hc hd hx, ?_⟩
    intro head outer frame _
    obtain ⟨after, y, hread, hclose⟩ := ih head ((frame, opening.mark) :: outer) {} rfl
    refine ⟨frame, x.enclose opening.mark, ?_, rfl, rfl⟩
    have hclose : after.close y = x := hclose
    simp [step?_opening _ _ _ ho, hread, step?_closing _ _ _ _ _ _ hc, hclose]
  | ofAtom d ih =>
    obtain ⟨x, hx, hd, ih⟩ := ih
    refine ⟨x, hx, Derivation.part_inlined rfl _ hd hx, ?_⟩
    intro head outer frame _
    obtain ⟨after, y, hread, rfl, rfl⟩ := ih head outer frame trivial
    exact ⟨after, y, hread, rfl, rfl, rfl, rfl⟩
  | power base caret h exponent ihb ihe =>
    obtain ⟨x, hx, hb, ihb⟩ := ihb
    obtain ⟨z, hz, he, ihe⟩ := ihe
    refine ⟨.binary .pow x caret z, Operand.placed_ofRule .., Derivation.part_power _ h hb he, ?_⟩
    intro head outer frame _
    obtain ⟨f, w, hbase, hf, hw⟩ := ihb head outer frame trivial
    subst f w
    obtain ⟨after, y, hexp, hclose⟩ := ihe head outer
      { frame with tight := .pow x caret :: frame.tight } trivial
    refine ⟨after, y, ?_, hclose⟩
    simp only [Derivation.tokens_power, read?_append, hbase, Option.bind_some, read?_cons,
      step?_caret _ _ _ _ h]
    exact hexp
  | ofPow d ih =>
    obtain ⟨x, hx, hd, ih⟩ := ih
    exact ⟨x, hx, Derivation.part_inlined rfl _ hd hx, ih⟩
  | negative minus h d ih =>
    obtain ⟨x, hx, hd, ih⟩ := ih
    refine ⟨.negation minus x, Operand.placed_ofRule .., Derivation.part_negative _ h hd, ?_⟩
    intro head outer frame _
    obtain ⟨after, y, hread, hclose⟩ := ih head outer
      { frame with tight := .neg minus :: frame.tight } trivial
    refine ⟨after, y, ?_, hclose⟩
    simp only [Derivation.tokens_negative, read?_cons, step?_minus _ _ _ h, Option.bind_some]
    exact hread
  | ofUnary d ih =>
    obtain ⟨x, hx, hd, ih⟩ := ih
    refine ⟨x, hx, Derivation.part_inlined rfl _ hd hx, ?_⟩
    intro head outer frame _
    obtain ⟨after, y, hread, hc, hs, hp, ht⟩ := ih head outer frame trivial
    exact ⟨after, y, hread, hc, hs, by simp only [Frame.closeProduct, hp, ht]⟩
  | product left operator h right ihl ihr =>
    obtain ⟨x, hx, hl, ihl⟩ := ihl
    obtain ⟨z, hz, hr, ihr⟩ := ihr
    refine ⟨.binary .mul x operator z, Operand.placed_ofRule .., Derivation.part_product _ h hl hr,
      ?_⟩
    intro head outer frame hf
    obtain ⟨f, w, hleft, hc, hs, hp⟩ := ihl head outer frame hf
    obtain ⟨after, y, hright, hc', hs', hp', ht'⟩ := ihr head outer
      { f with product := some ⟨f.closeProduct w, operator⟩, tight := [] } trivial
    refine ⟨after, y, ?_, hc'.trans hc, hs'.trans hs, ?_⟩
    · simp only [Derivation.tokens_product, read?_append, hleft, Option.bind_some, read?_cons,
        step?_product _ _ _ _ h]
      exact hright
    · rw [Frame.closeProduct_of_admits hf] at hp ⊢
      rw [Frame.closeProduct, hp', ht', hp]
      rfl
  | ofMul d ih =>
    obtain ⟨x, hx, hd, ih⟩ := ih
    refine ⟨x, hx, Derivation.part_inlined rfl _ hd hx, ?_⟩
    intro head outer frame hf
    obtain ⟨after, y, hread, hc, hs, hp⟩ := ih head outer frame hf.2
    exact ⟨after, y, hread, hc, by simp only [Frame.closeSum, hs, hp]⟩
  | sum left operator h right ihl ihr =>
    obtain ⟨x, hx, hl, ihl⟩ := ihl
    obtain ⟨z, hz, hr, ihr⟩ := ihr
    refine ⟨.binary .add x operator z, Operand.placed_ofRule .., Derivation.part_sum _ h hl hr, ?_⟩
    intro head outer frame hf
    obtain ⟨f, w, hleft, hc, hs⟩ := ihl head outer frame hf
    obtain ⟨after, y, hright, hc', hs', hp'⟩ := ihr head outer
      { f with sum := some ⟨f.closeSum w, operator⟩, product := none, tight := [] } ⟨rfl, rfl⟩
    refine ⟨after, y, ?_, hc'.trans hc, ?_⟩
    · simp only [Derivation.tokens_sum, read?_append, hleft, Option.bind_some, read?_cons,
        step?_sum _ _ _ _ h]
      exact hright
    · rw [Frame.closeSum_of_admits hf] at hs ⊢
      rw [Frame.closeSum, hs', hp', hs]
      rfl
  | ofAdd d ih =>
    obtain ⟨x, hx, hd, ih⟩ := ih
    refine ⟨x, hx, Derivation.part_inlined rfl _ hd hx, ?_⟩
    rintro head outer frame rfl
    obtain ⟨after, y, hread, hc, hs⟩ := ih head outer {} ⟨rfl, rfl, rfl⟩
    exact ⟨after, y, hread, by simp only [Frame.Closes, Frame.close, hc, hs]⟩
  | comparison left operator h right ihl ihr =>
    obtain ⟨x, hx, hl, ihl⟩ := ihl
    obtain ⟨z, hz, hr, ihr⟩ := ihr
    refine ⟨.binary .compare x operator z, Operand.placed_ofRule ..,
      Derivation.part_comparison _ h hl hr, ?_⟩
    rintro head outer frame rfl
    obtain ⟨f, w, hleft, hc, hs⟩ := ihl head outer {} ⟨rfl, rfl, rfl⟩
    obtain ⟨after, y, hright, hc', hs'⟩ := ihr head outer
      { comparison := some ⟨f.closeSum w, operator⟩ } ⟨rfl, rfl, rfl⟩
    refine ⟨after, y, ?_, ?_⟩
    · simp only [Derivation.tokens_comparison, read?_append, hleft, Option.bind_some, read?_cons,
        step?_comparison _ _ _ _ h hc]
      exact hright
    · have hs : f.closeSum w = x := hs
      simp only [Frame.Closes]
      rw [Frame.close, hc', hs', hs]
      rfl

/-! ## Statements -/

/-- Whether a token can stand in an expression. -/
def Terminal.inExpression : Terminal → Bool
  | .equals | .print | .separator => false
  | _ => true

theorem Derivation.inExpression_of_mem (l : Level) (d : Derivation (.rule l.nonterminal)) :
    ∀ token ∈ d.tokens, token.kind.inExpression := by
  induction l, d using Derivation.level_induction with
  | leaf token h =>
    intro t ht
    rw [tokens_leaf, List.mem_singleton] at ht
    subst ht
    cases hk : t.kind <;> simp [hk, Terminal.isOperand, Terminal.inExpression] at h ⊢
  | group opening closing ho hc d ih =>
    rw [tokens_group, List.forall_mem_cons, List.forall_mem_append, List.forall_mem_singleton]
    exact ⟨by rw [ho]; rfl, ih, by rw [hc]; rfl⟩
  | ofAtom d ih | ofPow d ih | ofUnary d ih | ofMul d ih | ofAdd d ih => exact ih
  | power base caret h exponent ihb ihe =>
    rw [tokens_power, List.forall_mem_append, List.forall_mem_cons]
    exact ⟨ihb, by rw [h]; rfl, ihe⟩
  | negative minus h d ih =>
    rw [tokens_negative, List.forall_mem_cons]
    exact ⟨by rw [h]; rfl, ih⟩
  | product left operator h right ihl ihr =>
    rw [tokens_product, List.forall_mem_append, List.forall_mem_cons]
    refine ⟨ihl, ?_, ihr⟩
    cases hk : operator.kind <;> simp [hk, Terminal.isProduct, Terminal.inExpression] at h ⊢
  | sum left operator h right ihl ihr =>
    rw [tokens_sum, List.forall_mem_append, List.forall_mem_cons]
    refine ⟨ihl, ?_, ihr⟩
    cases hk : operator.kind <;> simp [hk, Terminal.isSum, Terminal.inExpression] at h ⊢
  | comparison left operator h right ihl ihr =>
    rw [tokens_comparison, List.forall_mem_append, List.forall_mem_cons]
    exact ⟨ihl, by rw [h]; rfl, ihr⟩

namespace Phase

/-- The phase with names that wait for an equals sign taken into the expression. -/
def inExpression : Phase → Phase
  | .fresh => .operand (.assign []) [] {}
  | .assigned targets => .operand (.assign targets) [] {}
  | .named targets name => .operator (.assign targets) [] {} (.ofToken name)
  | phase => phase

theorem statement?_inExpression (phase : Phase) :
    phase.inExpression.statement? = phase.statement? := by
  cases phase <;> rfl

theorem inExpression_of_takeOperand? {head : Head} {outer : List (Frame × Mark)} {frame : Frame}
    {token : Token} {next : Phase} (h : takeOperand? head outer frame token = some next) :
    next.inExpression = next := by
  unfold takeOperand? at h
  split at h <;> simp only [Option.some.injEq, reduceCtorEq] at h <;> subst h <;> rfl

theorem inExpression_of_takeOperator? {head : Head} {outer : List (Frame × Mark)} {frame : Frame}
    {y : Operand} {token : Token} {next : Phase}
    (h : takeOperator? head outer frame y token = some next) : next.inExpression = next := by
  unfold takeOperator? at h
  split at h
  · cases h; rfl
  · cases h
  · obtain ⟨f, -, rfl⟩ := Option.map_eq_some_iff.1 h
    rfl

/-- Inside an expression it does not matter whether its first name was taken into it. -/
theorem step?_inExpression (phase : Phase) {token : Token} (h : token.kind.inExpression) :
    phase.inExpression.step? token = (phase.step? token).map inExpression := by
  have operand : ∀ head outer frame, takeOperand? head outer frame token =
      (takeOperand? head outer frame token).map inExpression := by
    intro head outer frame
    cases ht : takeOperand? head outer frame token with
    | none => rfl
    | some next => rw [Option.map_some, inExpression_of_takeOperand? ht]
  have operator : ∀ head outer frame y, takeOperator? head outer frame y token =
      (takeOperator? head outer frame y token).map inExpression := by
    intro head outer frame y
    cases ht : takeOperator? head outer frame y token with
    | none => rfl
    | some next => rw [Option.map_some, inExpression_of_takeOperator? ht]
  cases phase with
  | fresh | assigned targets =>
    cases hk : token.kind <;> simp only [hk, Terminal.inExpression, Bool.false_eq_true] at h
    case name => simp [inExpression, step?, takeOperand?, hk]
    all_goals simpa [inExpression, step?, hk] using operand ..
  | named targets name =>
    cases hk : token.kind <;> simp only [hk, Terminal.inExpression, Bool.false_eq_true] at h
    all_goals simpa [inExpression, step?, hk] using operator ..
  | operand head outer frame => exact operand ..
  | operator head outer frame y => exact operator ..

theorem read?_inExpression (phase : Phase) {ts : List Token}
    (h : ∀ token ∈ ts, token.kind.inExpression) :
    phase.inExpression.read? ts = (phase.read? ts).map inExpression := by
  induction ts generalizing phase with
  | nil => rfl
  | cons token rest ih =>
    rw [read?_cons, read?_cons, step?_inExpression phase (h token (by simp))]
    cases phase.step? token with
    | none => rfl
    | some next => exact ih next fun t ht => h t (by simp [ht])

/-- Reading an expression where a statement's expression is due. -/
theorem read?_expr (d : Derivation (.rule .expr)) :
    ∃ x : Operand, x.Placed ∧ d.part = x.part ∧ ∀ (phase : Phase) (head : Head),
      phase.inExpression = .operand head [] {} →
        ∃ after, phase.read? d.tokens = some after ∧ after.statement? = some (head.close x) := by
  obtain ⟨x, hx, hd, hread⟩ := read?_level .expr d
  refine ⟨x, hx, hd, ?_⟩
  intro phase head hphase
  obtain ⟨frame, y, hread, hclose⟩ := hread head [] {} rfl
  have hclose : frame.close y = x := hclose
  rw [← hphase, read?_inExpression phase (Derivation.inExpression_of_mem .expr d)] at hread
  obtain ⟨after, hafter, hnormal⟩ := Option.map_eq_some_iff.1 hread
  refine ⟨after, hafter, ?_⟩
  rw [← statement?_inExpression, hnormal, ← hclose]
  rfl

/-- Whether a phase is in front of the expression of an assignment to these targets, or in front
of one more target. -/
def Starts (phase : Phase) (targets : List Token) : Prop :=
  phase = .assigned targets ∨ phase = .fresh ∧ targets = []

theorem Starts.inExpression {phase : Phase} {targets : List Token} (h : phase.Starts targets) :
    phase.inExpression = .operand (.assign targets) [] {} := by
  obtain rfl | ⟨rfl, rfl⟩ := h <;> rfl

theorem Starts.read?_target {phase : Phase} {targets : List Token} (h : phase.Starts targets)
    {name equals : Token} (hn : name.kind = .name) (he : equals.kind = .equals)
    (rest : List Token) :
    phase.read? (name :: equals :: rest) = (assigned (name :: targets)).read? rest := by
  obtain rfl | ⟨rfl, rfl⟩ := h <;> simp [step?, hn, he]

theorem read?_assign (d : Derivation (.rule .assign)) :
    ∃ x : Operand, x.Placed ∧ d.part = x.part ∧
      ∀ (phase : Phase) (targets : List Token), phase.Starts targets →
        ∃ after, phase.read? d.tokens = some after ∧
          after.statement? = some ((Head.assign targets).close x) := by
  induction d using Derivation.assign_induction with
  | last name equals hn he value =>
    obtain ⟨x, hx, hv, hread⟩ := read?_expr value
    refine ⟨_, Operand.placed_ofRule .., Derivation.part_assignment hn he hv, ?_⟩
    intro phase targets hphase
    obtain ⟨after, hafter, hstatement⟩ := hread (.assigned (name :: targets)) _ rfl
    refine ⟨after, ?_, hstatement⟩
    rw [Derivation.tokens_assignment, hphase.read?_target hn he]
    exact hafter
  | chain name equals hn he value ih =>
    obtain ⟨x, hx, hv, hread⟩ := ih
    refine ⟨_, Operand.placed_ofRule .., Derivation.part_assignment hn he hv, ?_⟩
    intro phase targets hphase
    obtain ⟨after, hafter, hstatement⟩ := hread (.assigned (name :: targets)) _ (.inl rfl)
    refine ⟨after, ?_, hstatement⟩
    rw [Derivation.tokens_assignment, hphase.read?_target hn he]
    exact hafter

/-- Reading a statement from its start. -/
theorem read?_stmt (d : Derivation (.rule .stmt)) :
    ∃ x : Operand, d.part = x.part ∧
      ∃ after, fresh.read? d.tokens = some after ∧ after.statement? = some x := by
  obtain ⟨e, rfl⟩ | ⟨keyword, h, e, rfl⟩ | ⟨e, rfl⟩ := Derivation.stmt_cases d
  · obtain ⟨x, hx, he, hread⟩ := read?_assign e
    exact ⟨x, Derivation.part_inlined rfl _ he hx, hread fresh [] (.inr ⟨rfl, rfl⟩)⟩
  · obtain ⟨x, hx, he, hread⟩ := read?_expr e
    obtain ⟨after, hafter, hstatement⟩ := hread (.operand (.print keyword) [] {}) _ rfl
    refine ⟨_, Derivation.part_inlined rfl _ (Derivation.part_printing h he)
      (Operand.placed_ofRule ..), after, ?_, hstatement⟩
    simpa [step?, h] using hafter
  · obtain ⟨x, hx, he, hread⟩ := read?_expr e
    exact ⟨x, Derivation.part_inlined rfl _ he hx, hread fresh (.assign []) rfl⟩

end Phase

/-! ## Programs -/

theorem Derivation.ne_separator_of_mem (d : Derivation (.rule .stmt)) :
    ∀ token ∈ d.tokens, token.kind ≠ .separator := by
  have expression : ∀ (e : Derivation (.rule .expr)), ∀ token ∈ e.tokens,
      token.kind ≠ .separator := by
    intro e token ht hk
    have := inExpression_of_mem .expr e token ht
    simp [hk, Terminal.inExpression] at this
  have assign : ∀ (e : Derivation (.rule .assign)), ∀ token ∈ e.tokens,
      token.kind ≠ .separator := by
    intro e
    induction e using assign_induction with
    | last name equals hn he value =>
      rw [tokens_assignment, List.forall_mem_cons, List.forall_mem_cons, hn, he]
      exact ⟨by decide, by decide, expression value⟩
    | chain name equals hn he value ih =>
      rw [tokens_assignment, List.forall_mem_cons, List.forall_mem_cons, hn, he]
      exact ⟨by decide, by decide, ih⟩
  obtain ⟨e, rfl⟩ | ⟨keyword, h, e, rfl⟩ | ⟨e, rfl⟩ := stmt_cases d
  · exact assign e
  · rw [tokens_ofPrint, tokens_printing, List.forall_mem_cons, h]
    exact ⟨by decide, expression e⟩
  · exact expression e

namespace Reading

theorem run_append (reading : Reading) (ts us : List Token) :
    reading.run (ts ++ us) =
      match reading.run ts with
      | .ok next => next.run us
      | .error token => .error token := by
  induction ts generalizing reading with
  | nil => rfl
  | cons token rest ih =>
    simp only [List.cons_append, run]
    cases reading.step? token with
    | none => rfl
    | some next => exact ih next

/-- The tokens of one statement change only the phase. -/
theorem run_of_read? {reading : Reading} {ts : List Token} {after : Phase}
    (hs : ∀ token ∈ ts, token.kind ≠ .separator) (h : reading.phase.read? ts = some after) :
    reading.run ts = .ok { reading with phase := after } := by
  induction ts generalizing reading with
  | nil =>
    cases h
    rfl
  | cons token rest ih =>
    rw [List.forall_mem_cons] at hs
    rw [Phase.read?_cons, Option.bind_eq_some_iff] at h
    obtain ⟨next, hnext, hrest⟩ := h
    have step : reading.step? token = some { reading with phase := next } := by
      unfold step?
      split
      · exact absurd ‹_› hs.1
      · rw [hnext]
        rfl
    rw [run, step]
    exact ih hs.2 hrest

theorem endStatement?_of_statement? {reading : Reading} {x : Operand}
    (h : reading.phase.statement? = some x) : reading.endStatement? = some (reading.push x) := by
  unfold endStatement?
  split
  · next hp =>
    rw [hp] at h
    cases h
  · rw [h]
    rfl

/-- Reading a statement that may be missing, where one may start. -/
theorem run_optional {reading : Reading} (hp : reading.phase = .fresh)
    (d : Derivation (.optional (.rule .stmt))) :
    ∃ after ended : Reading, reading.run d.tokens = .ok after ∧
      after.endStatement? = some ended ∧ ended.phase = .fresh ∧
      ended.statements = d.part.nodes.reverse ++ reading.statements ∧
      ended.start.map Mark.position = (reading.start.map Mark.position).or d.part.start := by
  cases d with
  | absent =>
    refine ⟨reading, reading, rfl, by simp [endStatement?, hp], hp, rfl, ?_⟩
    simp [Derivation.part]
  | present d =>
    obtain ⟨x, hd, after, hafter, hx⟩ := Phase.read?_stmt d
    refine ⟨{ reading with phase := after }, { reading with phase := after }.push x,
      run_of_read? d.ne_separator_of_mem (by rw [hp]; exact hafter),
      endStatement?_of_statement? hx, rfl, ?_, ?_⟩
    · simp [Derivation.part, hd, push, Operand.part]
    · cases reading.start <;> simp [Derivation.part, hd, push, Operand.part]

/-- Reading statements that end in separators. -/
theorem run_lines (reading : Reading) (hp : reading.phase = .fresh) :
    (d : Derivation Pattern.lines) → ∃ after : Reading, reading.run d.tokens = .ok after ∧
      after.phase = .fresh ∧ after.statements = d.part.nodes.reverse ++ reading.statements ∧
      after.start.map Mark.position = (reading.start.map Mark.position).or d.part.start
  | .stop => ⟨reading, rfl, hp, rfl, by simp [Derivation.part]⟩
  | .more (.seq line (.terminal separator h)) rest => by
    obtain ⟨after, ended, hrun, hended, hphase, hnodes, hstart⟩ := run_optional hp line
    have step : after.step? separator =
        some { ended with start := ended.start <|> some separator.mark } := by
      simp [step?, h, hended]
    obtain ⟨last, hrest, hlast, hnodes', hstart'⟩ :=
      run_lines { ended with start := ended.start <|> some separator.mark } hphase rest
    refine ⟨last, ?_, hlast, ?_, ?_⟩
    · simp only [Derivation.tokens, List.append_assoc, run_append, hrun, List.singleton_append,
        run, step]
      exact hrest
    · rw [hnodes', hnodes]
      simp [Derivation.part, Part.ofToken, h, Terminal.isKept]
    · rw [hstart']
      have moved : Option.map Mark.position (ended.start <|> some separator.mark) =
          (ended.start.map Mark.position).or (some separator.mark.position) := by
        cases ended.start <;> rfl
      rw [moved, hstart]
      simp [Derivation.part, Part.ofToken]

/-- A derivable program is read whole, and its tree is what the derivation leaves. -/
theorem finish?_of_derivation (d : Derivation (.rule .program)) :
    ∃ reading tree, Reading.run {} d.tokens = .ok reading ∧ reading.finish? = some tree ∧
      d.part.nodes = [tree] := by
  obtain ⟨lines, last, rfl⟩ := Derivation.program_cases d
  obtain ⟨middle, hlines, hmiddle, hnodes, hstart⟩ := run_lines {} rfl lines
  obtain ⟨after, ended, hlast, hended, -, hnodes', hstart'⟩ := run_optional hmiddle last
  refine ⟨after, .rule Rule.program.label ended.statements.reverse
    (ended.start.map Mark.position), ?_, by rw [finish?, hended]; rfl, ?_⟩
  · rw [Derivation.tokens_program, run_append, hlines]
    exact hlast
  · rw [Derivation.part_program, hnodes', hnodes, hstart', hstart]
    simp [Part.wrap, Nonterminal.isInlined, Nonterminal.label, Rule.label]

end Reading

end Reckon
