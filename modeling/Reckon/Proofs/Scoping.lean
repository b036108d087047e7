import Reckon.Proofs.Atomicity
import Reckon.Proofs.Causes
import Reckon.Proofs.Footprint

/-!
# Names without a binding

Which reads of a program are of unknown names can be told from its tokens: a name in front of an
equals sign is assigned to and known from the next statement on, any other name is read.  A program
without unknown reads never fails for want of a name, and one that has some never succeeds and fails
for no other name than the first of them (`evaluate_unknown`).

The tokens of a statement and its node tell the same about names (`Derivation.exists_usage`), and
evaluating the node tells of the first unknown read in it (`Node.IsStatement.reporting`).
-/

namespace Reckon

/-- What a statement does with names: those it reads, in order and with their positions, and those
it assigns to. -/
structure Usage where
  reads : List (String × Option Position)
  targets : List String

namespace Usage

/-- The reads of names that are neither known at first nor assigned to in an earlier statement. -/
def unknown (known : String → Bool) : List Usage → List (String × Option Position)
  | [] => []
  | usage :: rest =>
    (usage.reads.filter fun read => !known read.1) ++
      unknown (fun name => known name || usage.targets.contains name) rest

/-- Whether an equals sign comes next. -/
def meetsEquals (rest : List Token) : Bool := rest.head?.any fun token => token.kind == .equals

/-- What the tokens of a statement say: a name in front of an equals sign is assigned to, and any
other name is read. -/
def ofTokens : List Token → Usage
  | [] => ⟨[], []⟩
  | token :: rest =>
    if token.kind = .name then
      if meetsEquals rest then
        { ofTokens rest with targets := token.text :: (ofTokens rest).targets }
      else
        { ofTokens rest with
          reads := (token.text, some token.mark.position) :: (ofTokens rest).reads }
    else ofTokens rest

/-- What the tokens of a program say, statement by statement. -/
def ofProgram (tokens : List Token) : List Usage :=
  (tokens.splitOnP fun token => token.kind == .separator).map ofTokens

/-- What the node of a statement says. -/
def ofNode (node : Node) : Usage := ⟨node.reads, node.targets⟩

/-- A line without tokens does not matter. -/
theorem unknown_empty (known : String → Bool) (usages : List Usage) :
    unknown known (⟨[], []⟩ :: usages) = unknown known usages := by
  simp [unknown]

/-! ## Tokens and nodes -/

theorem ofTokens_skip {token : Token} (h : token.kind ≠ .name) (rest : List Token) :
    ofTokens (token :: rest) = ofTokens rest := by
  rw [ofTokens, if_neg h]

theorem ofTokens_assignment {name equals : Token} (hn : name.kind = .name)
    (he : equals.kind = .equals) (rest : List Token) :
    ofTokens (name :: equals :: rest) =
      ⟨(ofTokens rest).reads, name.text :: (ofTokens rest).targets⟩ := by
  have hmeets : meetsEquals (equals :: rest) := by simp [meetsEquals, he]
  rw [ofTokens, if_pos hn, if_pos hmeets, ofTokens_skip (by simp [he])]

/-- All names among some tokens. -/
def names (ts : List Token) : List (String × Option Position) :=
  (ts.filter fun token => token.kind == .name).map fun token =>
    (token.text, some token.mark.position)

theorem names_append (ts us : List Token) : names (ts ++ us) = names ts ++ names us := by
  simp [names]

theorem names_cons_of_ne {token : Token} (h : token.kind ≠ .name) (ts : List Token) :
    names (token :: ts) = names ts := by
  simp [names, h]

/-- Without an equals sign all names are read. -/
theorem ofTokens_of_inExpression {ts : List Token} (h : ∀ token ∈ ts, token.kind.inExpression) :
    ofTokens ts = ⟨names ts, []⟩ := by
  induction ts with
  | nil => rfl
  | cons token rest ih =>
    rw [List.forall_mem_cons] at h
    have hmeets : meetsEquals rest = false := by
      cases rest with
      | nil => rfl
      | cons next rest =>
        have hnext := h.2 next List.mem_cons_self
        cases hk : next.kind <;> simp [meetsEquals, hk, Terminal.inExpression] at hnext ⊢
    rw [ofTokens, ih h.2, hmeets]
    by_cases hk : token.kind = .name
    · simp [hk, names]
    · simp [hk, names]

end Usage

namespace Node

variable {a b : Node} {position : Option Position}

theorem reads_binary {rule : Rule} {kind : Terminal} (hj : rule.joins kind) {operator : Node} :
    (Node.rule rule.label [a, operator, b] position).reads = a.reads ++ b.reads := by
  have hchildren : childReads rule 0 [a, operator, b] = a.reads ++ b.reads := by
    cases rule <;> first
      | cases hj
      | simp [childReads, Rule.evaluates]
  rw [reads, Rule.ofLabel?_label]
  exact hchildren

/-- A rule that evaluates only the second of two children. -/
theorem reads_second {rule : Rule} (h : rule = .neg ∨ rule = .assign) {first : Node} :
    (Node.rule rule.label [first, a] position).reads = a.reads := by
  rw [reads, Rule.ofLabel?_label]
  obtain rfl | rfl := h <;> simp [childReads, Rule.evaluates]

theorem reads_print : (Node.rule Rule.print.label [a] position).reads = a.reads := by
  rw [reads, Rule.ofLabel?_label]
  simp [childReads, Rule.evaluates]

end Node

namespace Derivation

open Usage

/-- An expression reads all of its names, from left to right. -/
theorem exists_reads (d : Derivation (.rule .expr)) :
    ∃ x : Operand, d.part = x.part ∧ x.Placed ∧ ofTokens d.tokens = ⟨x.node.reads, []⟩ ∧
      x.node.targets = [] := by
  obtain ⟨x, hd, hx, hreads, htargets⟩ : ∃ x : Operand, d.part = x.part ∧ x.Placed ∧
      x.node.reads = names d.tokens ∧ x.node.targets = [] := by
    refine exists_operand (P := fun ts node => node.reads = names ts ∧ node.targets = [])
      ?leaf ?group ?binary ?negation .expr d
    case leaf =>
      intro token hk
      obtain ⟨kind, text, mark⟩ := token
      cases kind
      case name | number | string =>
        simp [Operand.ofToken, Token.leaf, Node.reads, Node.targets, Terminal.label, names]
      all_goals cases hk
    case group =>
      intro opening closing ts x ho hc hx
      rwa [names_cons_of_ne (by simp [ho]), names_append, names_cons_of_ne (by simp [hc]),
        show names [] = [] from rfl, List.append_nil]
    case binary =>
      intro rule operator ts us x y hj hx hy
      have hoperator : operator.kind ≠ .name := by
        intro hk
        rw [hk] at hj
        cases rule <;> cases hj
      rw [Operand.binary, Operand.ofRule, Node.reads_binary hj, names_append,
        names_cons_of_ne hoperator, hx.1, hy.1]
      exact ⟨rfl, by simp [Node.targets]⟩
    case negation =>
      intro minus ts x hk hx
      rw [Operand.negation, Operand.ofRule, Node.reads_second (.inl rfl),
        names_cons_of_ne (by simp [hk])]
      exact ⟨hx.1, by simp [Node.targets, Token.leaf, Rule.label]⟩
  refine ⟨x, hd, hx, ?_, htargets⟩
  rw [ofTokens_of_inExpression (inExpression_of_mem .expr d), hreads]

theorem ofNode_assignment {name : Token} {node : Node} {position : Option Position} :
    ofNode (.rule Rule.assign.label [name.leaf, node] position) =
      ⟨(ofNode node).reads, name.text :: (ofNode node).targets⟩ := by
  rw [ofNode, Node.reads_second (.inr rfl)]
  simp [ofNode, Token.leaf, Node.targets]

theorem exists_usage_assign (d : Derivation (.rule .assign)) :
    ∃ x : Operand, d.part = x.part ∧ x.Placed ∧ ofNode x.node = ofTokens d.tokens := by
  induction d using assign_induction with
  | last name equals hn he value =>
    obtain ⟨x, hd, -, hreads, htargets⟩ := exists_reads value
    refine ⟨_, part_assignment hn he hd, Operand.placed_ofRule .., ?_⟩
    rw [Operand.ofRule, ofNode_assignment, tokens_assignment, ofTokens_assignment hn he, ofNode,
      htargets, tokens, hreads]
  | chain name equals hn he value ih =>
    obtain ⟨x, hd, -, hx⟩ := ih
    refine ⟨_, part_assignment hn he hd, Operand.placed_ofRule .., ?_⟩
    rw [Operand.ofRule, ofNode_assignment, hx, tokens_assignment, ofTokens_assignment hn he, tokens]

/-- The tokens of a statement and its node tell the same. -/
theorem exists_usage (d : Derivation (.rule .stmt)) :
    ∃ x : Operand, d.part = x.part ∧ ofNode x.node = ofTokens d.tokens := by
  obtain ⟨e, rfl⟩ | ⟨keyword, hk, e, rfl⟩ | ⟨e, rfl⟩ := stmt_cases d
  · obtain ⟨x, hd, hx, husage⟩ := exists_usage_assign e
    exact ⟨x, part_inlined rfl _ hd hx, husage⟩
  · obtain ⟨x, hd, -, hreads, -⟩ := exists_reads e
    refine ⟨_, part_inlined rfl _ (part_printing hk hd) (Operand.placed_ofRule ..), ?_⟩
    rw [tokens_ofPrint, tokens_printing, ofTokens_skip (by simp [hk]), hreads, Operand.ofRule,
      ofNode, Node.reads_print]
    simp [Node.targets]
  · obtain ⟨x, hd, hx, hreads, htargets⟩ := exists_reads e
    refine ⟨x, part_inlined rfl _ hd hx, ?_⟩
    rw [ofNode, htargets]
    exact hreads.symm

theorem unknown_optional (d : Derivation (.optional (.rule .stmt))) (known : String → Bool)
    (usages : List Usage) :
    unknown known (d.part.nodes.map ofNode ++ usages) =
      unknown known (ofTokens d.tokens :: usages) := by
  cases d with
  | absent => exact (unknown_empty known usages).symm
  | present d =>
    obtain ⟨x, hd, husage⟩ := exists_usage d
    rw [tokens, ← husage, part, hd]
    rfl

/-- What the tokens of a program say is what its statements say, empty lines apart. -/
theorem unknown_program (last : Derivation (.optional (.rule .stmt))) :
    (lines : Derivation Pattern.lines) → (known : String → Bool) →
      unknown known ((lines.part.nodes ++ last.part.nodes).map ofNode) =
        unknown known (ofProgram (lines.tokens ++ last.tokens))
  | .stop, known => by
    have hlast := unknown_optional last known []
    rw [List.append_nil] at hlast
    have hsplit : ofProgram last.tokens = [ofTokens last.tokens] := by
      rw [ofProgram, List.splitOnP_eq_singleton]
      · rfl
      · simpa using last.ne_separator_of_mem_optional
    rw [← hsplit] at hlast
    exact hlast
  | .more (.seq line (.terminal separator hk)) rest, known => by
    have hsplit : ofProgram (line.tokens ++ separator :: (rest.tokens ++ last.tokens)) =
        ofTokens line.tokens :: ofProgram (rest.tokens ++ last.tokens) := by
      rw [ofProgram, List.splitOnP_append_cons_of_forall_mem _ _ (by simp [hk])]
      · rfl
      · simpa using line.ne_separator_of_mem_optional
    have hnodes : (Derivation.more (.seq line (.terminal separator hk)) rest).part.nodes =
        line.part.nodes ++ rest.part.nodes := by
      simp [part, Part.ofToken, hk, Terminal.isKept]
    have htokens : (Derivation.more (.seq line (.terminal separator hk)) rest).tokens ++
        last.tokens = line.tokens ++ separator :: (rest.tokens ++ last.tokens) := by
      simp [tokens]
    rw [hnodes, htokens, hsplit, List.append_assoc, List.map_append, unknown_optional, unknown,
      unknown, unknown_program last rest]

end Derivation

theorem unknown_of_parse {engine : Engine} {source : String} {tree : Node}
    (h : parse engine source = .ok tree) (known : String → Bool) :
    Usage.unknown known (tree.children.map Usage.ofNode) =
      Usage.unknown known (Usage.ofProgram (Scan.ofText engine source).tokens) := by
  obtain ⟨tokens, mark, hlexed, d, rfl, hd⟩ := parse_eq_ok_iff.1 h
  obtain ⟨lines, last, rfl⟩ := Derivation.program_cases d
  rw [Derivation.part_program] at hd
  simp only [Part.wrap, Nonterminal.isInlined, List.cons.injEq, and_true] at hd
  subst hd
  rw [hlexed.ofText_eq, Derivation.tokens_program]
  exact Derivation.unknown_program last lines known

/-! ## Evaluation -/

/-- Those of the names read that have no binding. -/
def Environment.missing (env : Environment) (reads : List (String × Option Position)) :
    List (String × Option Position) :=
  reads.filter fun read => !env.bindings.contains read.1

namespace Outcome

variable {α β : Type} {x : Outcome α} {missing more : List (String × Option Position)}

/-- A success shows that no name is missing, and a fault for want of a name tells of the first. -/
structure Reports (missing : List (String × Option Position)) (x : Outcome α) : Prop where
  ok : ∀ {a}, x.result = .ok a → missing = []
  undefined : ∀ {name position}, x.result = .error ⟨.undefinedName name, position⟩ →
    position.isSome ∧ missing.head? = some (name, position)

namespace Reports

theorem andThen {next : α → Environment → Outcome β} (h : x.Reports missing)
    (hnext : ∀ a env, x = ⟨.ok a, env⟩ → (next a env).Reports more) :
    (x.andThen next).Reports (missing ++ more) := by
  obtain ⟨result, env⟩ := x
  cases result with
  | ok a =>
    rw [h.ok rfl, List.nil_append]
    exact hnext a env rfl
  | error fault =>
    rw [andThen_error]
    refine ⟨fun hok => (nomatch hok), fun {name position} hfault => ?_⟩
    obtain rfl := Except.error.inj hfault
    obtain ⟨hplace, hfirst⟩ := h.undefined rfl
    exact ⟨hplace, by rw [List.head?_append, hfirst]; rfl⟩

/-- A fault for want of a name has its place already. -/
theorem locate (h : x.Reports missing) (room : Room) (node : Node) :
    (x.locate room node).Reports missing := by
  obtain ⟨result, env⟩ := x
  cases result with
  | ok a => exact h
  | error fault =>
    obtain ⟨cause, place⟩ := fault
    refine ⟨fun hok => (nomatch hok), fun {name position} hfault => ?_⟩
    have hlocated : Fault.locate room node ⟨cause, place⟩ = ⟨.undefinedName name, position⟩ :=
      Except.error.inj hfault
    obtain rfl : cause = .undefinedName name := by
      obtain hkept | hlost := Fault.cause_locate ⟨cause, place⟩ room node
      · exact hkept.symm.trans (congrArg Fault.cause hlocated)
      · cases hlost.symm.trans (congrArg Fault.cause hlocated)
    obtain ⟨hplace, hfirst⟩ := h.undefined rfl
    rw [Fault.locate, if_pos (by simp [hplace])] at hlocated
    cases hlocated
    exact ⟨hplace, hfirst⟩

theorem map (h : x.Reports missing) (f : α → β) : (x.map f).Reports missing := by
  rw [← List.append_nil missing]
  exact h.andThen fun a env _ => ⟨fun _ => rfl, fun hfault => nomatch hfault⟩

/-- A step that no name is read in. -/
theorem of_ne (h : ∀ name position, x.result ≠ .error ⟨.undefinedName name, position⟩) :
    x.Reports [] :=
  ⟨fun _ => rfl, fun hfault => absurd hfault (h _ _)⟩

end Reports

end Outcome

/-! ### Steps that read no name -/

theorem Cause.Only.ne_undefinedName {α : Type} {result : Except Cause α}
    (h : Cause.Only Cause.OfComputation result) (name : String) :
    result ≠ .error (.undefinedName name) :=
  fun hname => h (.undefinedName name) hname

namespace Rule

variable {room : Room} {children : List Node} {values : List Value}

theorem reports_finish {rule : Rule}
    (h : ∀ name, rule.value room children values ≠ .error (.undefinedName name))
    (env : Environment) : (rule.finish room children values env).Reports [] := by
  apply Outcome.Reports.of_ne
  intro name position hfault
  unfold finish at hfault
  split at hfault
  · cases hfault
  · rename_i hvalue
    cases hfault
    exact h name hvalue

theorem value_binary_ne_undefinedName {rule : Rule} {kind : Terminal} (hj : rule.joins kind)
    (a b : Node) (text : String) (place : Option Position) (v w : Value) (name : String) :
    rule.value room [a, .token kind.label text place, b] [v, w] ≠ .error (.undefinedName name) := by
  by_cases hc : rule = .compare
  · subst hc
    rw [value_compare]
    cases hcompare : Value.compare text v w with
    | ok result => simp [Except.map]
    | error cause =>
      rintro ⟨⟩
      exact (Cause.only_compare text v w).ne_undefinedName name hcompare
  · have hrule : rule = .add ∨ rule = .mul ∨ rule = .pow := by
      cases rule <;> first | contradiction | simp
    rw [value_arithmetic hrule]
    exact (Cause.only_applyText text v w).ne_undefinedName name

theorem evalChildren_binary {rule : Rule} {kind : Terminal} (hj : rule.joins kind)
    (a operator b : Node) (room : Room) (env : Environment) :
    Node.evalChildren rule room env 0 [a, operator, b] =
      (a.eval room env).andThen fun v env => (b.eval room env).map fun w => [v, w] := by
  have hrow : Node.evalChildren rule room env 0 [a, operator, b] =
      (a.eval room env).andThen fun v env =>
        ((b.eval room env).map fun w => [w]).map fun values => v :: values := by
    cases rule <;> first | cases hj | rfl
  simp only [hrow, Outcome.map_map]

end Rule

namespace Node

variable {node : Node}

/-- A tree whose evaluation tells of the first name it reads that is missing. -/
def Reporting (node : Node) : Prop :=
  ∀ room env, (node.eval room env).Reports (env.missing node.reads)

theorem reports_nestedTooDeeply (env : Environment)
    (missing : List (String × Option Position)) :
    (Outcome.ofExcept env (.error .nestedTooDeeply) : Outcome Value).Reports missing :=
  ⟨fun hok => (nomatch hok), fun hfault => (nomatch hfault)⟩

theorem eval_name (text : String) (place : Position) (room : Room) (env : Environment) :
    (Node.token Terminal.name.label text (some place)).eval room env =
      match env.bindings.get? text with
      | some value => ⟨.ok value, env⟩
      | none => ⟨.error ⟨.undefinedName text, some place⟩, env⟩ := by
  have hvalue : tokenValue env.bindings Terminal.name.label text =
      match env.bindings.get? text with
      | some value => .ok value
      | none => .error (.undefinedName text) := rfl
  rw [eval, hvalue]
  cases env.bindings.get? text with
  | some value => rfl
  | none =>
    simp [Outcome.ofExcept, Outcome.locate, Fault.locate, Cause.isPlaceless, reach, position?]

theorem reporting_name (text : String) (place : Position) :
    (Node.token Terminal.name.label text (some place)).Reporting := by
  intro room env
  have hreads : (Node.token Terminal.name.label text (some place)).reads =
      [(text, some place)] := by
    rw [reads, if_pos rfl]
  rw [eval_name, hreads]
  cases hget : env.bindings.get? text with
  | some value =>
    refine ⟨fun _ => ?_, fun hfault => ?_⟩
    · simp [Environment.missing, Bindings.contains, hget]
    · cases hfault
  | none =>
    refine ⟨fun hok => ?_, fun hfault => ?_⟩
    · cases hok
    · cases hfault
      simp [Environment.missing, Bindings.contains, hget]

theorem reporting_token {kind : Terminal} (hk : kind.isOperand) (text : String) (place : Position) :
    (Node.token kind.label text (some place)).Reporting := by
  cases kind
  case name => exact reporting_name text place
  case string => exact fun _ _ => .of_ne fun _ _ hfault => nomatch hfault
  case number =>
    intro room env
    refine .locate (.of_ne fun name position hfault => ?_) _ _
    have hvalue : tokenValue env.bindings Terminal.number.label text = Literal.number text := rfl
    rw [hvalue] at hfault
    cases hnumber : Literal.number text with
    | ok value =>
      rw [hnumber] at hfault
      cases hfault
    | error cause =>
      rw [hnumber] at hfault
      cases hfault
      exact (Cause.only_number text).ne_undefinedName name hnumber
  all_goals cases hk

/-- A rule node with one operand tells what the operand does. -/
theorem Reporting.rule {operand : Node} (h : operand.Reporting) (rule : Rule)
    {children : List Node} (hcheck : rule.check children = .ok ())
    (hoperand : ∀ room env, evalChildren rule room env 0 children =
      (operand.eval room env).map fun value => [value])
    (hvalue : ∀ room value name, rule.value room children [value] ≠ .error (.undefinedName name))
    (position : Option Position)
    (hreads : (Node.rule rule.label children position).reads = operand.reads) :
    (Node.rule rule.label children position).Reporting := by
  intro room env
  rw [eval_rule hcheck, hreads]
  cases room.enter? rule.label with
  | none => exact reports_nestedTooDeeply env _
  | some inner =>
    simp only [hoperand, Outcome.andThen_map]
    apply Outcome.Reports.locate
    rw [← List.append_nil (env.missing operand.reads)]
    exact (h inner env).andThen fun value env _ => Rule.reports_finish (hvalue inner value) env

/-- Operands are evaluated from left to right, and the first leaves the environment as it is. -/
theorem reporting_binary {rule : Rule} {kind : Terminal} (hj : rule.joins kind) {a b : Node}
    (ha : a.Reporting) (hsilent : a.Silent) (hb : b.Reporting) (text : String)
    (place position : Option Position) :
    (Node.rule rule.label [a, .token kind.label text place, b] position).Reporting := by
  intro room env
  rw [eval_rule (Rule.check_binary hj), reads_binary hj, Environment.missing, List.filter_append]
  cases room.enter? rule.label with
  | none => exact reports_nestedTooDeeply env _
  | some inner =>
    simp only [Rule.evalChildren_binary hj, Outcome.andThen_assoc, Outcome.andThen_map]
    apply Outcome.Reports.locate
    refine (ha inner env).andThen fun v after hv => ?_
    obtain rfl : after = env := by rw [← hsilent.env_eval inner env, hv]
    rw [← List.append_nil (b.reads.filter _)]
    exact (hb inner after).andThen fun w env _ => Rule.reports_finish
      (Rule.value_binary_ne_undefinedName hj a b text place v w) env

theorem IsExpr.reporting {texts : Terminal → String → Prop} (h : node.IsExpr texts IsMarked) :
    node.Reporting := by
  induction h with
  | token hk _ hp =>
    obtain ⟨mark, rfl⟩ := hp
    exact reporting_token hk _ _
  | binary hj ha _ _ _ _ iha ihb => exact reporting_binary hj iha ha.silent ihb _ _ _
  | neg _ _ _ _ ih =>
    refine ih.rule .neg rfl (fun _ _ => rfl) ?_ _ (reads_second (.inl rfl))
    intro room value
    exact (Cause.only_negate value).ne_undefinedName

theorem IsValue.reporting {texts : Terminal → String → Prop} (h : node.IsValue texts IsMarked) :
    node.Reporting := by
  induction h with
  | expr h => exact h.reporting
  | assign _ _ _ _ ih =>
    exact ih.rule .assign rfl (fun _ _ => rfl) (fun _ _ _ h => nomatch h) _
      (reads_second (.inr rfl))

theorem IsStatement.reporting {texts : Terminal → String → Prop}
    (h : node.IsStatement texts IsMarked) : node.Reporting := by
  cases h with
  | value h => exact h.reporting
  | print hx =>
    refine hx.reporting.rule .print rfl (fun _ _ => rfl) (fun _ value name h => ?_) _ reads_print
    obtain ⟨f, hcause⟩ := Cause.only_shown value _ h
    cases hcause

/-- After a statement the names it assigns to are known, too. -/
theorem IsStatement.contains_of_ok {texts : Terminal → String → Prop}
    (h : node.IsStatement texts IsMarked) {room : Room} {env after : Environment} {value : Value}
    (hvalue : node.eval room env = ⟨.ok value, after⟩) (name : String) :
    after.bindings.contains name = (env.bindings.contains name || node.targets.contains name) := by
  rw [Bindings.contains, h.get?_of_ok hvalue name]
  by_cases hname : name ∈ node.targets
  · simp [hname]
  · simp [hname, Bindings.contains]

end Node

/-- Statements one after another tell of the first unknown read in them. -/
theorem reports_inOrder {statements : List Node} {texts : Terminal → String → Prop}
    (h : ∀ statement ∈ statements, statement.IsStatement texts IsMarked) (env : Environment) :
    (Outcome.inOrder evaluateStatement statements env).Reports
      (Usage.unknown env.bindings.contains (statements.map Usage.ofNode)) := by
  induction statements generalizing env with
  | nil => exact .of_ne fun _ _ hfault => nomatch hfault
  | cons statement rest ih =>
    rw [List.forall_mem_cons] at h
    rw [Outcome.inOrder, List.map_cons, Usage.unknown]
    refine (h.1.reporting _ env).andThen fun value after hvalue => ?_
    have hknown : (fun name => env.bindings.contains name || statement.targets.contains name) =
        after.bindings.contains :=
      funext fun name => (h.1.contains_of_ok hvalue name).symm
    rw [Usage.ofNode, hknown]
    exact (ih h.2 after).map _

theorem Cause.eq_undefinedName {cause : Cause}
    (h : cause.className = "UndefinedVariableError") : ∃ name, cause = .undefinedName name := by
  cases cause with
  | undefinedName name => exact ⟨name, rfl⟩
  | _ => simp [className] at h

/-- Say that a read is unknown if its name is neither bound at first nor assigned to in an earlier
statement.  A program without unknown reads never fails for want of a name.  One with an unknown
read never succeeds, and if it fails for want of a name, then it is for that of the first unknown
read, and the fault is placed there. -/
theorem evaluate_unknown {engine : Engine} {source : String} {tree : Node}
    (hparse : parse engine source = .ok tree) (env : Environment) :
    let unknown := Usage.unknown env.bindings.contains
      (Usage.ofProgram (Scan.ofText engine source).tokens)
    (unknown = [] → ∀ fault, (evaluate tree env).result = .error fault →
      fault.cause.className ≠ "UndefinedVariableError") ∧
    ∀ first ∈ unknown.head?,
      (∀ value, (evaluate tree env).result ≠ .ok value) ∧
      ∀ fault, (evaluate tree env).result = .error fault →
        fault.cause.className = "UndefinedVariableError" →
          fault.cause = .undefinedName first.1 ∧ fault.position = first.2 := by
  intro unknown
  have hprogram := isProgram_of_parse hparse
  have hreports : (evaluate tree env).Reports unknown := by
    rw [hprogram.evaluate_eq]
    have hrow := reports_inOrder hprogram.isStatement_of_mem env
    rw [unknown_of_parse hparse] at hrow
    exact hrow.map _
  constructor
  · intro hnone fault hfault hclass
    obtain ⟨cause, position⟩ := fault
    obtain ⟨name, rfl⟩ := Cause.eq_undefinedName hclass
    have hfirst := (hreports.undefined hfault).2
    rw [hnone] at hfirst
    cases hfirst
  · intro first hfirst
    refine ⟨fun value hvalue => ?_, fun fault hfault hclass => ?_⟩
    · rw [hreports.ok hvalue] at hfirst
      cases hfirst
    · obtain ⟨cause, position⟩ := fault
      obtain ⟨name, rfl⟩ := Cause.eq_undefinedName hclass
      have hfound := (hreports.undefined hfault).2
      rw [Option.mem_def.1 hfirst] at hfound
      cases hfound
      exact ⟨rfl, rfl⟩

/-- A chain whose second name is read before it is bound, behind a name that is. -/
def selfReference : Node :=
  .rule Rule.program.label
    [.rule Rule.assign.label
      [.token Terminal.name.label "a" (some ⟨1, some 1⟩),
        .token Terminal.string.label "\"x\"" (some ⟨1, some 5⟩)] (some ⟨1, some 1⟩),
      .rule Rule.assign.label
        [.token Terminal.name.label "a" (some ⟨2, some 1⟩),
          .rule Rule.assign.label
            [.token Terminal.name.label "b" (some ⟨2, some 5⟩),
              .rule Rule.add.label
                [.token Terminal.name.label "a" (some ⟨2, some 9⟩),
                  .token Terminal.plus.label "+" (some ⟨2, some 11⟩),
                  .token Terminal.name.label "b" (some ⟨2, some 13⟩)] (some ⟨2, some 9⟩)]
            (some ⟨2, some 5⟩)] (some ⟨2, some 1⟩)] (some ⟨1, some 1⟩)

theorem evaluate_selfReference :
    parse .lalr "a = \"x\"\na = b = a + b" = .ok selfReference ∧
      (∀ value, (evaluate selfReference {}).result ≠ .ok value) ∧
      ∃ fault, (evaluate selfReference {}).result = .error fault ∧
        fault.cause = .undefinedName "b" ∧ fault.position = some ⟨2, some 13⟩ := by
  have hparse : parse .lalr "a = \"x\"\na = b = a + b" = .ok selfReference := by cbv
  have hunknown : (Usage.unknown ({} : Environment).bindings.contains (Usage.ofProgram
      (Scan.ofText .lalr "a = \"x\"\na = b = a + b").tokens)).head? =
        some ("b", some ⟨2, some 13⟩) := by cbv
  have hfault : (evaluate selfReference {}).result =
      .error ⟨.undefinedName "b", some ⟨2, some 13⟩⟩ := by cbv
  obtain ⟨hnever, hplace⟩ := (evaluate_unknown hparse {}).2 _ hunknown
  exact ⟨hparse, hnever, _, hfault, hplace _ hfault rfl⟩

end Reckon
