import Reckon.Proofs.Events
import Reckon.Proofs.Sequence
import Reckon.Tree.Outline

/-!
# Statements are atomic

An expression has no events.  An assignment binds its names and a printing writes its line only
when the value is there, so a statement that fails has bound and printed nothing.  A program that
fails therefore ends with what the statements in front of the failing one have done
(`evaluate_atomic`).
-/

namespace Reckon

theorem Rule.event?_of_joins {rule : Rule} {kind : Terminal} (hj : rule.joins kind)
    (children : List Node) (value : Value) : rule.event? children value = none := by
  cases rule <;> first | rfl | cases hj

namespace Node

variable {node : Node} {texts : Terminal → String → Prop} {places : Option Position → Prop}

/-! ## Expressions -/

/-- A tree that neither binds nor prints, wherever it is evaluated. -/
def Silent (node : Node) : Prop := ∀ room env, node.events room env = []

theorem Silent.env_eval (h : node.Silent) (room : Room) (env : Environment) :
    (node.eval room env).env = env := by
  rw [Node.env_eval, h, Event.replay_nil]

theorem childEvents_of_silent {r : Rule} {children : List Node} {index : Nat}
    (h : ∀ child ∈ evaluated r index children, child.Silent) (room : Room) (env : Environment) :
    childEvents r room env index children = [] := by
  induction children generalizing index env with
  | nil => rw [childEvents]
  | cons child rest ih =>
    rw [evaluated] at h
    rw [childEvents]
    split
    · rename_i hevaluates
      rw [if_pos hevaluates, List.forall_mem_cons] at h
      rw [h.1 room env, List.nil_append]
      exact Outcome.events_eq_nil fun _ env => ih h.2 env
    · rename_i hskips
      rw [if_neg hskips] at h
      exact ih h env

/-- A rule node is silent if its operands are and its own step is. -/
theorem silent_rule {rule : Rule} {children : List Node}
    (hchildren : ∀ child ∈ evaluated rule 0 children, child.Silent)
    (hevent : ∀ value, rule.event? children value = none) (position : Option Position) :
    (Node.rule rule.label children position).Silent := by
  intro room env
  rw [events, Rule.ofLabel?_label]
  have hown (inner : Room) (values : List Value) : rule.events inner children values = [] := by
    unfold Rule.events
    split
    · rw [hevent]
      rfl
    · rfl
  cases room.enter? rule.label with
  | none => rfl
  | some inner =>
    apply Outcome.events_eq_nil
    intro _ env
    rw [childEvents_of_silent hchildren inner env, List.nil_append]
    exact Outcome.events_eq_nil fun values _ => hown inner values

theorem IsExpr.silent (h : node.IsExpr texts places) : node.Silent := by
  induction h with
  | token => intro room env; rfl
  | binary hj _ _ _ _ _ iha ihb =>
    apply silent_rule
    · rw [Rule.evaluated_binary hj]
      simpa using ⟨iha, ihb⟩
    · exact Rule.event?_of_joins hj _
  | neg _ _ _ _ ih =>
    apply silent_rule
    · simpa [evaluated, Rule.evaluates] using ih
    · intro value
      rfl

/-! ## Assignments and printing -/

/-- The names that a statement assigns to, the outermost first. -/
def targets : Node → List String
  | .rule label [.token _ name _, value] _ =>
    if label = Rule.assign.label then name :: value.targets else []
  | _ => []

theorem IsExpr.targets_eq (h : node.IsExpr texts places) : node.targets = [] := by
  cases h with
  | token => simp [targets]
  | binary => simp [targets]
  | neg => simp [targets, Rule.label]

end Node

/-- The environment with each of some names bound to a value, the last name first. -/
def Environment.defineAll (env : Environment) (names : List String) (value : Value) : Environment :=
  names.foldr (fun name env => env.define name value) env

theorem Environment.get?_defineAll (env : Environment) (names : List String) (value : Value)
    (name : String) :
    (env.defineAll names value).bindings.get? name =
      if name ∈ names then some value else env.bindings.get? name := by
  induction names with
  | nil => simp [defineAll]
  | cons other names ih =>
    have hget : (env.defineAll (other :: names) value).bindings.get? name =
        if name = other then some value else (env.defineAll names value).bindings.get? name :=
      Bindings.get?_define ..
    rw [hget, ih]
    by_cases h : name = other
    · simp [h]
    · simp [h]

namespace Node

variable {node : Node} {texts : Terminal → String → Prop} {places : Option Position → Prop}
  {act : Value → Environment → Environment}

/-- Evaluating a tree fails and changes nothing, or gives a value and does what depends on it. -/
def Acts (node : Node) (act : Value → Environment → Environment) : Prop :=
  ∀ room env, (∃ fault, node.eval room env = ⟨.error fault, env⟩) ∨
    ∃ value, node.eval room env = ⟨.ok value, act value env⟩

theorem Acts.env_of_error (h : node.Acts act) {room : Room} {env after : Environment}
    {fault : Fault} (hfault : node.eval room env = ⟨.error fault, after⟩) : after = env := by
  obtain ⟨found, hfound⟩ | ⟨value, hvalue⟩ := h room env
  · rw [hfound] at hfault
    cases hfault
    rfl
  · rw [hvalue] at hfault
    cases hfault

theorem Acts.env_of_ok (h : node.Acts act) {room : Room} {env after : Environment}
    {value : Value} (hvalue : node.eval room env = ⟨.ok value, after⟩) : after = act value env := by
  obtain ⟨fault, hfault⟩ | ⟨found, hfound⟩ := h room env
  · rw [hfault] at hvalue
    cases hvalue
  · rw [hfound] at hvalue
    cases hvalue
    rfl

theorem IsExpr.acts (h : node.IsExpr texts places) : node.Acts fun _ env => env := by
  intro room env
  have henv := h.silent.env_eval room env
  rcases heval : node.eval room env with ⟨fault | value, after⟩
  · rw [heval] at henv
    exact .inl ⟨fault, by rw [← henv]⟩
  · rw [heval] at henv
    exact .inr ⟨value, by rw [← henv]⟩

/-- A rule node that takes on the value of its operand acts when the operand has acted.  Where it
can refuse the value, the operand does not act. -/
theorem Acts.rule (rule : Rule) {children : List Node} {operand : Node}
    (hcheck : rule.check children = .ok ())
    (hoperand : ∀ room env, evalChildren rule room env 0 children =
      (operand.eval room env).map fun value => [value])
    (hvalue : ∀ room value, rule.value room children [value] = .ok value ∨
      (∃ cause, rule.value room children [value] = .error cause) ∧ ∀ env, act value env = env)
    (h : operand.Acts act) (position : Option Position) :
    (Node.rule rule.label children position).Acts
      fun value env => rule.effect children value (act value env) := by
  intro room env
  rw [eval_rule hcheck]
  cases room.enter? rule.label with
  | none => exact .inl ⟨_, rfl⟩
  | some inner =>
    simp only [hoperand]
    obtain ⟨fault, hfault⟩ | ⟨value, hfound⟩ := h inner env
    · rw [hfault]
      exact .inl ⟨_, rfl⟩
    · rw [hfound]
      simp only [Outcome.map_ok, Outcome.andThen_ok, Rule.finish]
      obtain hvalue | ⟨⟨cause, hcause⟩, hact⟩ := hvalue inner value
      · rw [hvalue]
        exact .inr ⟨value, rfl⟩
      · rw [hcause, hact]
        exact .inl ⟨_, rfl⟩

theorem Acts.assign (h : node.Acts act) (name : String) (place position : Option Position) :
    (Node.rule Rule.assign.label [.token Terminal.name.label name place, node] position).Acts
      fun value env => (act value env).define name value :=
  h.rule .assign rfl (fun _ _ => rfl) (fun _ _ => .inl rfl) position

theorem Acts.print (h : node.Acts fun _ env => env) (position : Option Position) :
    (Node.rule Rule.print.label [node] position).Acts
      fun value env => env.writeLine value.display := by
  refine h.rule .print rfl (fun _ _ => rfl) (fun _ value => ?_) position
  obtain hshown | ⟨f, -, -, hhidden⟩ := value.shown_cases
  · exact .inl hshown
  · exact .inr ⟨⟨_, hhidden⟩, fun _ => rfl⟩

/-- An assignment binds all of its names or none. -/
theorem IsValue.acts (h : node.IsValue texts places) :
    node.Acts fun value env => env.defineAll node.targets value := by
  induction h with
  | expr h =>
    rw [h.targets_eq]
    exact h.acts
  | @assign name value place position _ _ _ _ ih =>
    have htargets : (Node.rule Rule.assign.label [.token Terminal.name.label name place, value]
        position).targets = name :: value.targets := by
      simp [targets]
    rw [htargets]
    exact ih.assign name place position

/-- A statement that fails has changed nothing. -/
theorem IsStatement.env_of_error (h : node.IsStatement texts places) {room : Room}
    {env after : Environment} {fault : Fault}
    (hfault : node.eval room env = ⟨.error fault, after⟩) : after = env := by
  cases h with
  | value h => exact h.acts.env_of_error hfault
  | print hx => exact (hx.acts.print _).env_of_error hfault

/-- A statement that succeeds has bound its own targets only. -/
theorem IsStatement.get?_of_ok (h : node.IsStatement texts places) {room : Room}
    {env after : Environment} {value : Value} (hvalue : node.eval room env = ⟨.ok value, after⟩)
    (name : String) :
    after.bindings.get? name =
      if name ∈ node.targets then some value else env.bindings.get? name := by
  cases h with
  | value h =>
    rw [h.acts.env_of_ok hvalue]
    exact env.get?_defineAll node.targets value name
  | print hx =>
    rw [(hx.acts.print _).env_of_ok hvalue]
    simp [targets, Environment.writeLine]

end Node

/-! ## Programs -/

/-- A program that fails has one failing statement.  Those in front of it succeed, and what they
have bound and written is what is left at the end: the failing one has done nothing.  A statement
that succeeds binds each name of its chain to its value, and no other name. -/
theorem evaluate_atomic {engine : Engine} {source : String} {tree : Node}
    (hparse : parse engine source = .ok tree) (env : Environment) :
    (∀ fault, (evaluate tree env).result = .error fault →
      ∃! k, ∃ values statement,
        Outcome.inOrder evaluateStatement (tree.children.take k) env =
          ⟨.ok values, (evaluate tree env).env⟩ ∧
        tree.children[k]? = some statement ∧
        evaluateStatement statement (evaluate tree env).env =
          ⟨.error fault, (evaluate tree env).env⟩) ∧
    ∀ statement ∈ tree.children, ∀ before value after,
      evaluateStatement statement before = ⟨.ok value, after⟩ →
        ∀ name, after.bindings.get? name =
          if name ∈ statement.targets then some value else before.bindings.get? name := by
  have hprogram := isProgram_of_parse hparse
  have hstatements := hprogram.isStatement_of_mem
  constructor
  · intro fault hfault
    rw [hprogram.evaluate_eq] at hfault ⊢
    rw [Outcome.env_map]
    have hrow := Outcome.eq_error_of_map hfault
    obtain ⟨k, before, hfails⟩ := Outcome.inOrder_eq_error hrow
    obtain ⟨values, statement, htake, hget, hfail⟩ := id hfails
    have hs : statement ∈ tree.children := List.mem_of_getElem? hget
    -- The failing statement leaves what those in front of it have left.
    have hbefore := (hstatements statement hs).env_of_error hfail
    rw [← hbefore] at htake hfail
    refine ⟨k, ⟨values, statement, htake, hget, hfail⟩, ?_⟩
    intro j hj
    obtain ⟨values', statement', hj⟩ := hj
    exact Outcome.FailsAt.unique ⟨values', statement', hj⟩ hfails
  · intro statement hs before value after hvalue name
    exact (hstatements statement hs).get?_of_ok hvalue name

/-- A text is bound to a name, and then its square to two others. -/
def failingChain : Node :=
  .rule Rule.program.label
    [.rule Rule.assign.label
      [.token Terminal.name.label "a" (some ⟨1, some 1⟩),
        .token Terminal.string.label "\"x\"" (some ⟨1, some 5⟩)] (some ⟨1, some 1⟩),
      .rule Rule.assign.label
        [.token Terminal.name.label "b" (some ⟨2, some 1⟩),
          .rule Rule.assign.label
            [.token Terminal.name.label "c" (some ⟨2, some 5⟩),
              .rule Rule.mul.label
                [.token Terminal.name.label "a" (some ⟨2, some 9⟩),
                  .token Terminal.star.label "*" (some ⟨2, some 11⟩),
                  .token Terminal.name.label "a" (some ⟨2, some 13⟩)] (some ⟨2, some 9⟩)]
            (some ⟨2, some 5⟩)] (some ⟨2, some 1⟩)] (some ⟨1, some 1⟩)

theorem evaluate_failingChain :
    parse .lalr "a = \"x\"\nb = c = a * a" = .ok failingChain ∧
      (evaluate failingChain {}).env.bindings.entries = [("a", .text "x")] ∧
      ∃ fault, (evaluate failingChain {}).result = .error fault ∧
        ∃ (k : Nat) (statement : Node), failingChain.children[k]? = some statement ∧
          evaluateStatement statement (evaluate failingChain {}).env =
            ⟨.error fault, (evaluate failingChain {}).env⟩ := by
  have hparse : parse .lalr "a = \"x\"\nb = c = a * a" = .ok failingChain := by cbv
  have hfault : (evaluate failingChain {}).result =
      .error ⟨.kindMismatch "*" [.text, .text], some ⟨2, some 9⟩⟩ := by cbv
  obtain ⟨k, ⟨-, statement, -, hget, hfail⟩, -⟩ := (evaluate_atomic hparse {}).1 _ hfault
  exact ⟨hparse, by cbv, _, hfault, k, statement, hget, hfail⟩

end Reckon
