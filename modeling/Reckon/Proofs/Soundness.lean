import Reckon.Proofs.Completeness

/-!
# What is read is derivable

The state of reading is described by the tokens that led to it: each of its parts was read from
its own stretch of them, and every operand in it is derived from its stretch (`Reading.Reads`).  A
step keeps this, so a program that is read whole is derivable, with the tree that was read.  Each
state can also be completed: an operand and the missing parentheses make a whole program.
-/

namespace Reckon

/-! ## Phrases -/

/-- Whether some tokens are a phrase of a level with the given operand. -/
def Level.Reads (l : Level) (ts : List Token) (x : Operand) : Prop :=
  ∃ d : Derivation (.rule l.nonterminal), d.tokens = ts ∧ d.part = x.part ∧ x.Placed

namespace Level

variable {ts us : List Token} {x y : Operand} {token : Token}

theorem reads_leaf (h : token.kind.isOperand) : Level.atom.Reads [token] (.ofToken token) :=
  ⟨.leaf token h, rfl, Derivation.part_leaf token h, Operand.placed_ofToken token⟩

theorem Reads.group {closing : Token} (h : Level.expr.Reads ts x) (ho : token.kind = .lparen)
    (hc : closing.kind = .rparen) :
    Level.atom.Reads (token :: (ts ++ [closing])) (x.enclose token.mark) := by
  obtain ⟨d, rfl, hd, hx⟩ := h
  exact ⟨.group token closing ho hc d, rfl, Derivation.part_group _ _ ho hc hd hx, hx.enclose _⟩

theorem Reads.pow (h : Level.atom.Reads ts x) : Level.pow.Reads ts x := by
  obtain ⟨d, rfl, hd, hx⟩ := h
  exact ⟨.ofAtom d, rfl, Derivation.part_inlined rfl _ hd hx, hx⟩

theorem Reads.power (hb : Level.atom.Reads ts x) (h : token.kind = .caret)
    (he : Level.unary.Reads us y) :
    Level.pow.Reads (ts ++ token :: us) (.binary .pow x token y) := by
  obtain ⟨d, rfl, hd, -⟩ := hb
  obtain ⟨e, rfl, he, -⟩ := he
  exact ⟨.power d token h e, rfl, Derivation.part_power token h hd he, Operand.placed_ofRule ..⟩

theorem Reads.unary (h : Level.pow.Reads ts x) : Level.unary.Reads ts x := by
  obtain ⟨d, rfl, hd, hx⟩ := h
  exact ⟨.ofPow d, rfl, Derivation.part_inlined rfl _ hd hx, hx⟩

theorem Reads.negative (h : token.kind = .minus) (hx : Level.unary.Reads ts x) :
    Level.unary.Reads (token :: ts) (.negation token x) := by
  obtain ⟨d, rfl, hd, -⟩ := hx
  exact ⟨.negative token h d, rfl, Derivation.part_negative token h hd, Operand.placed_ofRule ..⟩

theorem Reads.mul (h : Level.unary.Reads ts x) : Level.mul.Reads ts x := by
  obtain ⟨d, rfl, hd, hx⟩ := h
  exact ⟨.ofUnary d, rfl, Derivation.part_inlined rfl _ hd hx, hx⟩

theorem Reads.product (hl : Level.mul.Reads ts x) (h : token.kind.isProduct)
    (hr : Level.unary.Reads us y) :
    Level.mul.Reads (ts ++ token :: us) (.binary .mul x token y) := by
  obtain ⟨d, rfl, hd, -⟩ := hl
  obtain ⟨e, rfl, he, -⟩ := hr
  exact ⟨.product d token h e, Derivation.tokens_product .., Derivation.part_product token h hd he,
    Operand.placed_ofRule ..⟩

theorem Reads.add (h : Level.mul.Reads ts x) : Level.add.Reads ts x := by
  obtain ⟨d, rfl, hd, hx⟩ := h
  exact ⟨.ofMul d, rfl, Derivation.part_inlined rfl _ hd hx, hx⟩

theorem Reads.sum (hl : Level.add.Reads ts x) (h : token.kind.isSum)
    (hr : Level.mul.Reads us y) :
    Level.add.Reads (ts ++ token :: us) (.binary .add x token y) := by
  obtain ⟨d, rfl, hd, -⟩ := hl
  obtain ⟨e, rfl, he, -⟩ := hr
  exact ⟨.sum d token h e, Derivation.tokens_sum .., Derivation.part_sum token h hd he,
    Operand.placed_ofRule ..⟩

theorem Reads.expr (h : Level.add.Reads ts x) : Level.expr.Reads ts x := by
  obtain ⟨d, rfl, hd, hx⟩ := h
  exact ⟨.ofAdd d, rfl, Derivation.part_inlined rfl _ hd hx, hx⟩

theorem Reads.comparison (hl : Level.add.Reads ts x) (h : token.kind = .comparison)
    (hr : Level.add.Reads us y) :
    Level.expr.Reads (ts ++ token :: us) (.binary .compare x token y) := by
  obtain ⟨d, rfl, hd, -⟩ := hl
  obtain ⟨e, rfl, he, -⟩ := hr
  exact ⟨.comparison d token h e, rfl, Derivation.part_comparison token h hd he,
    Operand.placed_ofRule ..⟩

end Level

/-! ## Frames -/

/-- Whether some tokens are a waiting minus sign, or a base and its caret. -/
def Tight.Reads (ts : List Token) : Tight → Prop
  | .neg minus => minus.kind = .minus ∧ ts = [minus]
  | .pow base caret => caret.kind = .caret ∧ ∃ us, Level.atom.Reads us base ∧ ts = us ++ [caret]

/-- Whether some tokens are the waiting minus signs and powers, the last token's first. -/
def Tight.ReadsAll (ts : List Token) : List Tight → Prop
  | [] => ts = []
  | waiting :: rest => ∃ us vs, ReadsAll us rest ∧ waiting.Reads vs ∧ ts = us ++ vs

/-- Whether some tokens are a left operand of a level and an operator, or none if there is no
left operand. -/
def Left.Reads (l : Level) (p : Terminal → Bool) (ts : List Token) : Option Left → Prop
  | none => ts = []
  | some left => p left.operator.kind ∧ ∃ us, l.Reads us left.operand ∧ ts = us ++ [left.operator]

/-- Whether some tokens are what waits in a frame. -/
def Frame.Reads (frame : Frame) (ts : List Token) : Prop :=
  ∃ a b c d, Left.Reads .add (· == .comparison) a frame.comparison ∧
    Left.Reads .add Terminal.isSum b frame.sum ∧
    Left.Reads .mul Terminal.isProduct c frame.product ∧
    Tight.ReadsAll d frame.tight ∧ ts = a ++ (b ++ (c ++ d))

theorem Frame.reads_empty : Frame.Reads {} [] := ⟨[], [], [], [], rfl, rfl, rfl, rfl, rfl⟩

theorem Tight.ReadsAll.close {ts us : List Token} {waiting : List Tight} {x : Operand}
    (h : Tight.ReadsAll ts waiting) (hx : Level.unary.Reads us x) :
    Level.unary.Reads (ts ++ us) (waiting.foldl (fun x waiting => waiting.close x) x) := by
  induction waiting generalizing ts us x with
  | nil =>
    cases h
    exact hx
  | cons first rest ih =>
    obtain ⟨vs, ws, hrest, hfirst, rfl⟩ := h
    rw [List.append_assoc]
    refine ih hrest ?_
    cases first with
    | neg minus =>
      obtain ⟨hm, rfl⟩ := hfirst
      exact hx.negative hm
    | pow base caret =>
      obtain ⟨hc, zs, hbase, rfl⟩ := hfirst
      rw [List.append_assoc]
      exact (hbase.power hc hx).unary

namespace Frame

variable {frame : Frame} {a b c d us : List Token} {x : Operand}

theorem reads_closeProduct (hc : Left.Reads .mul Terminal.isProduct c frame.product)
    (hd : Tight.ReadsAll d frame.tight) (hx : Level.atom.Reads us x) :
    Level.mul.Reads (c ++ (d ++ us)) (frame.closeProduct x) := by
  have tight : Level.unary.Reads (d ++ us) (frame.closeTight x) := hd.close hx.pow.unary
  unfold closeProduct
  cases hp : frame.product with
  | none =>
    rw [hp] at hc
    cases hc
    exact tight.mul
  | some left =>
    rw [hp] at hc
    obtain ⟨hk, vs, hleft, rfl⟩ := hc
    rw [List.append_assoc]
    exact hleft.product hk tight

theorem reads_closeSum (hb : Left.Reads .add Terminal.isSum b frame.sum)
    (hc : Left.Reads .mul Terminal.isProduct c frame.product)
    (hd : Tight.ReadsAll d frame.tight) (hx : Level.atom.Reads us x) :
    Level.add.Reads (b ++ (c ++ (d ++ us))) (frame.closeSum x) := by
  have product := reads_closeProduct hc hd hx
  unfold closeSum
  cases hs : frame.sum with
  | none =>
    rw [hs] at hb
    cases hb
    exact product.add
  | some left =>
    rw [hs] at hb
    obtain ⟨hk, vs, hleft, rfl⟩ := hb
    rw [List.append_assoc]
    exact hleft.sum hk product

/-- A frame closed around an atom is an expression. -/
theorem Reads.close {ts : List Token} (h : frame.Reads ts) (hx : Level.atom.Reads us x) :
    Level.expr.Reads (ts ++ us) (frame.close x) := by
  obtain ⟨a, b, c, d, ha, hb, hc, hd, rfl⟩ := h
  have sum := reads_closeSum hb hc hd hx
  simp only [List.append_assoc]
  unfold Frame.close
  cases hf : frame.comparison with
  | none =>
    rw [hf] at ha
    cases ha
    exact sum.expr
  | some left =>
    rw [hf] at ha
    obtain ⟨hk, vs, hleft, rfl⟩ := ha
    rw [List.append_assoc]
    exact hleft.comparison (by simpa using hk) sum

/-- A frame after an operand and a token that joins it to the next. -/
theorem Reads.join? {ts : List Token} {token : Token} {next : Frame} (h : frame.Reads ts)
    (hx : Level.atom.Reads us x) (hj : frame.join? x token = some next) :
    next.Reads (ts ++ (us ++ [token])) := by
  obtain ⟨a, b, c, d, ha, hb, hc, hd, rfl⟩ := h
  have product : ∀ hk : token.kind.isProduct,
      Frame.Reads { frame with product := some ⟨frame.closeProduct x, token⟩, tight := [] }
        (a ++ (b ++ (c ++ d)) ++ (us ++ [token])) := by
    intro hk
    refine ⟨a, b, _, [], ha, hb, ⟨hk, _, reads_closeProduct hc hd hx, rfl⟩, rfl, ?_⟩
    simp
  have sum : ∀ hk : token.kind.isSum,
      Frame.Reads
        { frame with sum := some ⟨frame.closeSum x, token⟩, product := none, tight := [] }
        (a ++ (b ++ (c ++ d)) ++ (us ++ [token])) := by
    intro hk
    refine ⟨a, _, [], [], ha, ⟨hk, _, reads_closeSum hb hc hd hx, rfl⟩, rfl, rfl, ?_⟩
    simp
  unfold Frame.join? at hj
  split at hj
  case h_1 hk =>
    cases hj
    refine ⟨a, b, c, d ++ (us ++ [token]), ha, hb, hc, ⟨d, _, hd, ⟨hk, us, hx, rfl⟩, rfl⟩, ?_⟩
    simp
  case h_2 hk | h_3 hk | h_4 hk =>
    cases hj
    exact product (by rw [hk]; rfl)
  case h_5 hk | h_6 hk =>
    cases hj
    exact sum (by rw [hk]; rfl)
  case h_7 hk =>
    split at hj
    · cases hj
    · next hn =>
      cases hj
      have none : frame.comparison = none := by simpa using hn
      rw [none] at ha
      cases ha
      refine ⟨_, [], [], [], ⟨by simpa using hk, _, reads_closeSum hb hc hd hx, rfl⟩, rfl, rfl,
        rfl, ?_⟩
      simp
  case h_8 => cases hj

end Frame

/-! ## Statements -/

/-- Whether some tokens are names with equals signs behind them, the last name first. -/
def ReadsTargets (ts : List Token) : List Token → Prop
  | [] => ts = []
  | name :: rest => ∃ us equals, ReadsTargets us rest ∧ name.kind = .name ∧
      equals.kind = .equals ∧ ts = us ++ [name, equals]

/-- Whether some tokens stand in front of the expression of a statement. -/
def Head.Reads (ts : List Token) : Head → Prop
  | .print keyword => keyword.kind = .print ∧ ts = [keyword]
  | .assign targets => ReadsTargets ts targets

/-- Whether some tokens are a statement with the given operand. -/
def ReadsStatement (ts : List Token) (x : Operand) : Prop :=
  ∃ d : Derivation (.rule .stmt), d.tokens = ts ∧ d.part = x.part

theorem ReadsTargets.close {ts us : List Token} {targets : List Token} {x : Operand}
    (h : ReadsTargets ts targets) (hx : x.Placed)
    (value : Derivation (.either (.rule .assign) (.rule .expr))) (ht : value.tokens = us)
    (hv : value.part = x.part) :
    ReadsStatement (ts ++ us) ((Head.assign targets).close x) := by
  induction targets generalizing ts us x value with
  | nil =>
    cases h
    cases value with
    | left d => exact ⟨.ofAssign d, ht, Derivation.part_inlined rfl _ hv hx⟩
    | right d => exact ⟨.ofExpr d, ht, Derivation.part_inlined rfl _ hv hx⟩
  | cons name rest ih =>
    obtain ⟨vs, equals, hrest, hn, he, rfl⟩ := h
    have tokens : (Derivation.assignment name equals hn he value).tokens =
        name :: equals :: us := by rw [Derivation.tokens_assignment, ht]
    have := ih hrest (Operand.placed_ofRule ..) (.left (.assignment name equals hn he value)) tokens
      (Derivation.part_assignment hn he hv)
    rw [List.append_assoc]
    exact this

theorem Head.Reads.close {ts us : List Token} {head : Head} {x : Operand} (h : head.Reads ts)
    (hx : Level.expr.Reads us x) : ReadsStatement (ts ++ us) (head.close x) := by
  obtain ⟨d, rfl, hd, hx⟩ := hx
  cases head with
  | print keyword =>
    obtain ⟨hk, rfl⟩ := h
    exact ⟨.ofPrint (.printing keyword hk d), rfl,
      Derivation.part_inlined rfl _ (Derivation.part_printing hk hd) (Operand.placed_ofRule ..)⟩
  | assign targets => exact ReadsTargets.close h hx (.right d) rfl hd

/-- Whether some tokens are the frames around open parentheses, the last opened first. -/
def ReadsOuter (ts : List Token) : List (Frame × Mark) → Prop
  | [] => ts = []
  | (frame, mark) :: rest => ∃ us vs opening, ReadsOuter us rest ∧ frame.Reads vs ∧
      opening.kind = .lparen ∧ opening.mark = mark ∧ ts = us ++ (vs ++ [opening])

/-- Whether some tokens are what has been read of a statement. -/
def Phase.Reads (ts : List Token) : Phase → Prop
  | .fresh => ts = []
  | .assigned targets => ReadsTargets ts targets
  | .named targets name => name.kind = .name ∧ ∃ us, ReadsTargets us targets ∧ ts = us ++ [name]
  | .operand head outer frame =>
    ∃ a b c, head.Reads a ∧ ReadsOuter b outer ∧ frame.Reads c ∧ ts = a ++ (b ++ c)
  | .operator head outer frame last =>
    ∃ a b c d, head.Reads a ∧ ReadsOuter b outer ∧ frame.Reads c ∧ Level.atom.Reads d last ∧
      ts = a ++ (b ++ (c ++ d))

namespace Phase

variable {head : Head} {outer : List (Frame × Mark)} {frame : Frame} {last : Operand}
  {a b c d : List Token} {token : Token} {next : Phase}

theorem reads_takeOperand? (ha : head.Reads a) (hb : ReadsOuter b outer) (hc : frame.Reads c)
    (h : takeOperand? head outer frame token = some next) :
    next.Reads (a ++ (b ++ c) ++ [token]) := by
  have leaf : ∀ hk : token.kind.isOperand,
      (operator head outer frame (.ofToken token)).Reads (a ++ (b ++ c) ++ [token]) := by
    intro hk
    refine ⟨a, b, c, [token], ha, hb, hc, Level.reads_leaf hk, ?_⟩
    simp
  unfold takeOperand? at h
  split at h
  case h_1 hk | h_2 hk | h_3 hk =>
    cases h
    exact leaf (by rw [hk]; rfl)
  case h_4 hk =>
    cases h
    obtain ⟨p, q, r, s, hp, hq, hr, hs, rfl⟩ := hc
    refine ⟨a, b, _, ha, hb, ⟨p, q, r, s ++ [token], hp, hq, hr, ⟨s, _, hs, ⟨hk, rfl⟩, rfl⟩, rfl⟩,
      ?_⟩
    simp
  case h_5 hk =>
    cases h
    refine ⟨a, _, [], ha, ⟨b, c, token, hb, hc, hk, rfl, rfl⟩, Frame.reads_empty, ?_⟩
    simp
  case h_6 => cases h

theorem reads_takeOperator? (ha : head.Reads a) (hb : ReadsOuter b outer) (hc : frame.Reads c)
    (hd : Level.atom.Reads d last) (h : takeOperator? head outer frame last token = some next) :
    next.Reads (a ++ (b ++ (c ++ d)) ++ [token]) := by
  unfold takeOperator? at h
  split at h
  case h_1 inner opening outer hk =>
    cases h
    obtain ⟨us, vs, bracket, hus, hvs, ho, rfl, rfl⟩ := hb
    refine ⟨a, us, vs, bracket :: (c ++ d ++ [token]), ha, hus, hvs, (hc.close hd).group ho hk, ?_⟩
    simp
  case h_2 => cases h
  case h_3 =>
    obtain ⟨f, hf, rfl⟩ := Option.map_eq_some_iff.1 h
    refine ⟨a, b, _, ha, hb, hc.join? hd hf, ?_⟩
    simp

/-- A token extends what has been read of a statement. -/
theorem Reads.step? {phase : Phase} {ts : List Token} (hp : phase.Reads ts)
    (h : phase.step? token = some next) : next.Reads (ts ++ [token]) := by
  have outer : ReadsOuter [] [] := rfl
  cases phase with
  | fresh =>
    cases hp
    have head : (Head.assign []).Reads [] := rfl
    simp only [Phase.step?] at h
    split at h
    case h_1 hk =>
      cases h
      exact ⟨[token], [], [], ⟨hk, rfl⟩, rfl, Frame.reads_empty, rfl⟩
    case h_2 hk =>
      cases h
      exact ⟨hk, [], rfl, rfl⟩
    case h_3 => exact reads_takeOperand? head outer Frame.reads_empty h
  | assigned targets =>
    have head : (Head.assign targets).Reads ts := hp
    simp only [Phase.step?] at h
    split at h
    case h_1 hk =>
      cases h
      exact ⟨hk, ts, hp, rfl⟩
    case h_2 => simpa using reads_takeOperand? head outer Frame.reads_empty h
  | named targets name =>
    obtain ⟨hn, us, hus, rfl⟩ := hp
    have head : (Head.assign targets).Reads us := hus
    have leaf : Level.atom.Reads [name] (.ofToken name) := Level.reads_leaf (by rw [hn]; rfl)
    simp only [Phase.step?] at h
    split at h
    case h_1 hk =>
      cases h
      exact ⟨us, token, hus, hn, hk, by simp⟩
    case h_2 => simpa using reads_takeOperator? head outer Frame.reads_empty leaf h
  | operand head outer frame =>
    obtain ⟨a, b, c, ha, hb, hc, rfl⟩ := hp
    exact reads_takeOperand? ha hb hc h
  | operator head outer frame last =>
    obtain ⟨a, b, c, d, ha, hb, hc, hd, rfl⟩ := hp
    exact reads_takeOperator? ha hb hc hd h

theorem Reads.statement? {phase : Phase} {ts : List Token} {x : Operand} (hp : phase.Reads ts)
    (h : phase.statement? = some x) : ReadsStatement ts x := by
  cases phase with
  | fresh | assigned | operand => cases h
  | named targets name =>
    cases h
    obtain ⟨hn, us, hus, rfl⟩ := hp
    have head : (Head.assign targets).Reads us := hus
    have leaf : Level.atom.Reads [name] (.ofToken name) := Level.reads_leaf (by rw [hn]; rfl)
    exact head.close leaf.pow.unary.mul.add.expr
  | operator head outer frame last =>
    obtain ⟨a, b, c, d, ha, hb, hc, hd, rfl⟩ := hp
    cases outer with
    | nil =>
      cases h
      cases hb
      exact ha.close (hc.close hd)
    | cons => cases h

end Phase

/-! ## Programs -/

namespace Derivation

/-- Statements that end in separators, and one more. -/
def snoc (lines : Derivation Pattern.lines) (line : Derivation (.optional (.rule .stmt)))
    (separator : Token) (h : separator.kind = .separator) : Derivation Pattern.lines :=
  match lines with
  | .stop => .more (.seq line (.terminal separator h)) .stop
  | .more first rest => .more first (snoc rest line separator h)

theorem tokens_snoc (line : Derivation (.optional (.rule .stmt))) {separator : Token}
    (h : separator.kind = .separator) : (lines : Derivation Pattern.lines) →
      (lines.snoc line separator h).tokens = lines.tokens ++ (line.tokens ++ [separator])
  | .stop => by simp [snoc, tokens]
  | .more first rest => by simp [snoc, tokens, tokens_snoc line h rest]

theorem part_snoc (line : Derivation (.optional (.rule .stmt))) {separator : Token}
    (h : separator.kind = .separator) : (lines : Derivation Pattern.lines) →
      (lines.snoc line separator h).part = lines.part ++ (line.part ++ Part.ofToken separator)
  | .stop => by simp [snoc, part, Part.ext_iff]
  | .more first rest => by simp [snoc, part, part_snoc line h rest, Part.ext_iff]

end Derivation

namespace Reading

/-- Whether some tokens are what has been read of a program: statements that have ended and what
there is of the current one. -/
def Reads (reading : Reading) (ts : List Token) : Prop :=
  ∃ (lines : Derivation Pattern.lines) (us : List Token), ts = lines.tokens ++ us ∧
    reading.phase.Reads us ∧ reading.statements = lines.part.nodes.reverse ∧
    reading.start.map Mark.position = lines.part.start

theorem reads_empty : Reads {} [] := ⟨.stop, [], rfl, rfl, rfl, rfl⟩

variable {reading ended : Reading} {ts : List Token} {token : Token}

/-- Ending a statement turns what has been read of it into a derivation. -/
theorem reads_endStatement? {us : List Token} {part : Part} (hp : reading.phase.Reads us)
    (hn : reading.statements = part.nodes.reverse)
    (hs : reading.start.map Mark.position = part.start) (h : reading.endStatement? = some ended) :
    ∃ last : Derivation (.optional (.rule .stmt)), last.tokens = us ∧ ended.phase = .fresh ∧
      ended.statements = (part ++ last.part).nodes.reverse ∧
      ended.start.map Mark.position = (part ++ last.part).start := by
  unfold endStatement? at h
  split at h
  · next hf =>
    cases h
    rw [hf] at hp
    refine ⟨.absent, hp.symm, hf, ?_, ?_⟩
    · simp [hn, Derivation.part]
    · simp [hs, Derivation.part]
  · obtain ⟨x, hx, rfl⟩ := Option.map_eq_some_iff.1 h
    obtain ⟨d, rfl, hd⟩ := hp.statement? hx
    refine ⟨.present d, rfl, rfl, ?_, ?_⟩
    · simp [push, hn, Derivation.part, hd, Operand.part]
    · rw [Part.start_append, ← hs]
      cases hstart : reading.start <;> simp [push, Derivation.part, hd, Operand.part, hstart]

/-- A token extends what has been read of a program. -/
theorem Reads.step? {next : Reading} (hr : reading.Reads ts) (h : reading.step? token = some next) :
    next.Reads (ts ++ [token]) := by
  obtain ⟨lines, us, rfl, hp, hn, hs⟩ := hr
  unfold Reading.step? at h
  split at h
  · next hk =>
    obtain ⟨ended, hended, rfl⟩ := Option.map_eq_some_iff.1 h
    obtain ⟨last, rfl, hphase, hnodes, hstart⟩ := reads_endStatement? hp hn hs hended
    refine ⟨lines.snoc last token hk, [], ?_, by rw [hphase]; rfl, ?_, ?_⟩
    · simp [Derivation.tokens_snoc]
    · simp [Derivation.part_snoc, hnodes, Part.ofToken, hk, Terminal.isKept]
    · rw [Derivation.part_snoc, Part.start_append, Part.start_append, ← Option.or_assoc,
        ← Part.start_append, ← hstart]
      cases ended.start <;> rfl
  · obtain ⟨phase, hphase, rfl⟩ := Option.map_eq_some_iff.1 h
    exact ⟨lines, us ++ [token], by simp, hp.step? hphase, hn, hs⟩

theorem Reads.run {us : List Token} {next : Reading} (hr : reading.Reads ts)
    (h : reading.run us = .ok next) : next.Reads (ts ++ us) := by
  induction us generalizing reading ts with
  | nil =>
    cases h
    simpa using hr
  | cons token rest ih =>
    rw [Reading.run] at h
    split at h
    · cases h
    · next hstep =>
      have := ih (hr.step? hstep) h
      simpa using this

/-- A program that is read whole is derivable, and the derivation leaves its tree. -/
theorem derivation_of_finish? {tree : Node} (h : Reading.run {} ts = .ok reading)
    (hf : reading.finish? = some tree) :
    ∃ d : Derivation (.rule .program), d.tokens = ts ∧ d.part.nodes = [tree] := by
  obtain ⟨lines, us, rfl, hp, hn, hs⟩ : reading.Reads ts := reads_empty.run h
  obtain ⟨ended, hended, rfl⟩ := Option.map_eq_some_iff.1 hf
  obtain ⟨last, rfl, -, hnodes, hstart⟩ := reads_endStatement? hp hn hs hended
  refine ⟨.program lines last, rfl, ?_⟩
  rw [Derivation.part_program, hnodes, hstart]
  simp [Part.wrap, Nonterminal.isInlined, Nonterminal.label, Rule.label]

end Reading

/-! ## Completions -/

namespace Phase

/-- A name, to stand where an operand is missing. -/
def someName : Token := ⟨.name, "x", {}⟩

/-- A closing parenthesis. -/
def someClosing : Token := ⟨.rparen, ")", {}⟩

theorem read?_closings (head : Head) (outer : List (Frame × Mark)) (frame : Frame) (y : Operand) :
    ∃ after x, (operator head outer frame y).read? (List.replicate outer.length someClosing) =
      some after ∧ after.statement? = some x := by
  induction outer generalizing frame y with
  | nil => exact ⟨_, _, rfl, rfl⟩
  | cons opened outer ih =>
    obtain ⟨after, x, hread, hx⟩ := ih opened.1 ((frame.close y).enclose opened.2)
    exact ⟨after, x, hread, hx⟩

/-- The current statement can be made whole. -/
theorem exists_completion (phase : Phase) : ∃ us after, phase.read? us = some after ∧
    (∀ token ∈ us, token.kind ≠ .separator) ∧
      (after = .fresh ∨ ∃ x, after.statement? = some x) := by
  have closings : ∀ n, ∀ token ∈ List.replicate n someClosing, token.kind ≠ .separator := by
    intro n token ht
    rw [List.eq_of_mem_replicate ht]
    decide
  cases phase with
  | fresh => exact ⟨[], .fresh, rfl, by simp, .inl rfl⟩
  | assigned targets => exact ⟨[someName], .named targets someName, rfl, by simp [someName],
      .inr ⟨_, rfl⟩⟩
  | named targets name => exact ⟨[], _, rfl, by simp, .inr ⟨_, rfl⟩⟩
  | operand head outer frame =>
    obtain ⟨after, x, hread, hx⟩ := read?_closings head outer frame (.ofToken someName)
    exact ⟨someName :: List.replicate outer.length someClosing, after, hread,
      List.forall_mem_cons.2 ⟨by decide, closings _⟩, .inr ⟨x, hx⟩⟩
  | operator head outer frame y =>
    obtain ⟨after, x, hread, hx⟩ := read?_closings head outer frame y
    exact ⟨_, after, hread, closings _, .inr ⟨x, hx⟩⟩

end Phase

/-- Whatever has been read can be continued to a whole program. -/
theorem Reading.exists_completion (reading : Reading) :
    ∃ us after tree, reading.run us = .ok after ∧ after.finish? = some tree := by
  obtain ⟨us, phase, hread, hs, hend⟩ := reading.phase.exists_completion
  refine ⟨us, { reading with phase }, ?_⟩
  obtain rfl | ⟨x, hx⟩ := hend
  · exact ⟨_, run_of_read? hs hread, rfl⟩
  · exact ⟨_, run_of_read? hs hread,
      Option.map_eq_some_iff.2 ⟨_, endStatement?_of_statement? hx, rfl⟩⟩

end Reckon
