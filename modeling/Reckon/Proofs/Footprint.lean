import Reckon.Proofs.Events

/-!
# The footprint of an evaluation

`Node.reads` lists the names that a tree reads and `Node.assigned` those that it assigns to.  What
an evaluation gives and does depends on the names it reads only (`Node.eval_agree`), and it binds
no other names than those it assigns to (`Node.mem_assigned_of_bound`).  Both hold of every tree,
however assignments and printing are mixed into its operands: `evaluate_footprint`.
-/

namespace Reckon

/-- The name that a rule node assigns to. -/
def Rule.target? : Rule → List Node → Option String
  | .assign, [.token kind name _, _] => if kind = Terminal.name.label then some name else none
  | _, _ => none

namespace Node

mutual

/-- The names that a tree reads, in the order of evaluation, with their positions. -/
def reads : Node → List (String × Option Position)
  | .foreign _ => []
  | .token kind text position => if kind = Terminal.name.label then [(text, position)] else []
  | .rule label children _ =>
    match Rule.ofLabel? label with
    | none => []
    | some r => childReads r 0 children

/-- The names read by those of a node's children that its rule evaluates. -/
def childReads (r : Rule) (index : Nat) : List Node → List (String × Option Position)
  | [] => []
  | node :: rest =>
    if r.evaluates index then node.reads ++ childReads r (index + 1) rest
    else childReads r (index + 1) rest

end

mutual

/-- The names that a tree assigns to. -/
def assigned : Node → List String
  | .foreign _ => []
  | .token .. => []
  | .rule label children _ =>
    match Rule.ofLabel? label with
    | none => []
    | some r => childAssigned r 0 children ++ (r.target? children).toList

/-- The names assigned to in those of a node's children that its rule evaluates. -/
def childAssigned (r : Rule) (index : Nat) : List Node → List String
  | [] => []
  | node :: rest =>
    if r.evaluates index then node.assigned ++ childAssigned r (index + 1) rest
    else childAssigned r (index + 1) rest

end

end Node

/-! ## Events in two environments -/

/-- Two environments have the same bindings of the names read. -/
def Environment.AgreeOn (reads : List (String × Option Position)) (env env' : Environment) :
    Prop :=
  ∀ read ∈ reads, env.bindings.get? read.1 = env'.bindings.get? read.1

namespace Environment.AgreeOn

variable {env env' : Environment} {reads more : List (String × Option Position)}

theorem append :
    AgreeOn (reads ++ more) env env' ↔ AgreeOn reads env env' ∧ AgreeOn more env env' :=
  List.forall_mem_append

/-- The same event leaves the same bindings where there were the same. -/
theorem apply (h : AgreeOn reads env env') (event : Event) :
    AgreeOn reads (event.apply env) (event.apply env') := by
  cases event with
  | printed value => exact h
  | bound name value =>
    intro read hread
    rw [Event.apply, Environment.define, Bindings.get?_define, Event.apply, Environment.define,
      Bindings.get?_define, h read hread]

theorem replay (h : AgreeOn reads env env') (events : List Event) :
    AgreeOn reads (Event.replay events env) (Event.replay events env') := by
  induction events generalizing env env' with
  | nil => exact h
  | cons event events ih => exact ih (h.apply event)

end Environment.AgreeOn

namespace Outcome

variable {α β : Type} {x y : Outcome α}

theorem result_andThen_congr {f g : α → Environment → Outcome β} (h : x.result = y.result)
    (hnext : ∀ a, (f a x.env).result = (g a y.env).result) :
    (x.andThen f).result = (y.andThen g).result := by
  obtain ⟨result, env⟩ := x
  obtain ⟨result', env'⟩ := y
  obtain rfl : result = result' := h
  cases result with
  | ok a => exact hnext a
  | error fault => rfl

theorem events_congr {f g : α → Environment → List Event} (h : x.result = y.result)
    (hnext : ∀ a, f a x.env = g a y.env) : x.events f = y.events g := by
  obtain ⟨result, env⟩ := x
  obtain ⟨result', env'⟩ := y
  obtain rfl : result = result' := h
  cases result with
  | ok a => exact hnext a
  | error fault => rfl

theorem result_locate_congr (h : x.result = y.result) (room : Room) (node : Node) :
    (x.locate room node).result = (y.locate room node).result := by
  obtain ⟨result, env⟩ := x
  obtain ⟨result', env'⟩ := y
  obtain rfl : result = result' := h
  cases result <;> rfl

theorem result_ofExcept_congr (env env' : Environment) (e : Except Cause α) :
    (ofExcept env e).result = (ofExcept env' e).result := by
  cases e <;> rfl

end Outcome

theorem Rule.result_finish_congr (rule : Rule) (room : Room) (children : List Node)
    (values : List Value) (env env' : Environment) :
    (rule.finish room children values env).result =
      (rule.finish room children values env').result := by
  unfold finish
  cases rule.value room children values <;> rfl

/-! ## What is read -/

namespace Node

theorem tokenValue_agree {env env' : Environment} {kind text : String} {position : Option Position}
    (h : Environment.AgreeOn (reads (.token kind text position)) env env') :
    tokenValue env.bindings kind text = tokenValue env'.bindings kind text := by
  unfold tokenValue
  split
  · rfl
  split
  · rfl
  split
  · rename_i hname
    have hread : (text, position) ∈ reads (.token kind text position) := by simp [reads, hname]
    rw [h _ hread]
  · rfl

mutual

/-- Where the names it reads have the same bindings, a tree gives the same result and has the same
events. -/
theorem eval_agree (room : Room) {env env' : Environment} : (node : Node) →
    Environment.AgreeOn node.reads env env' →
    (node.eval room env).result = (node.eval room env').result ∧
      node.events room env = node.events room env'
  | .foreign _, _ => by simp [eval, events, Outcome.ofExcept]
  | .token kind text position, h => by
    rw [eval, eval, tokenValue_agree h]
    exact ⟨Outcome.result_locate_congr (Outcome.result_ofExcept_congr ..) _ _, by simp [events]⟩
  | .rule label children position, h => by
    rw [eval, eval, events, events]
    cases room.enter? label with
    | none => exact ⟨rfl, rfl⟩
    | some inner =>
      rw [reads] at h
      cases hrule : Rule.ofLabel? label with
      | none => exact ⟨rfl, rfl⟩
      | some r =>
        rw [hrule] at h
        obtain ⟨hresult, hevents⟩ := evalChildren_agree r inner 0 children h
        have hcheck := Outcome.result_ofExcept_congr env env' (r.check children)
        constructor
        · apply Outcome.result_locate_congr
          apply Outcome.result_andThen_congr hcheck
          intro _
          rw [Outcome.env_ofExcept, Outcome.env_ofExcept]
          apply Outcome.result_andThen_congr hresult
          intro values
          exact r.result_finish_congr inner children values _ _
        · apply Outcome.events_congr hcheck
          intro _
          rw [Outcome.env_ofExcept, Outcome.env_ofExcept, hevents]
          congr 1
          exact Outcome.events_congr hresult fun values => rfl

theorem evalChildren_agree (r : Rule) (room : Room) {env env' : Environment} (index : Nat) :
    (children : List Node) → Environment.AgreeOn (childReads r index children) env env' →
    (evalChildren r room env index children).result =
        (evalChildren r room env' index children).result ∧
      childEvents r room env index children = childEvents r room env' index children
  | [], _ => by simp [evalChildren, childEvents]
  | node :: rest, h => by
    rw [evalChildren, evalChildren, childEvents, childEvents]
    rw [childReads] at h
    split
    case isTrue hevaluates =>
      rw [if_pos hevaluates, Environment.AgreeOn.append] at h
      obtain ⟨hresult, hevents⟩ := eval_agree room node h.1
      -- The node has the same events in both, so the rest still finds the same names bound.
      have hafter : Environment.AgreeOn (childReads r (index + 1) rest)
          (node.eval room env).env (node.eval room env').env := by
        rw [env_eval, env_eval, ← hevents]
        exact h.2.replay _
      obtain ⟨hrest, hmore⟩ := evalChildren_agree r room (index + 1) rest hafter
      constructor
      · apply Outcome.result_andThen_congr hresult
        intro value
        exact Outcome.result_andThen_congr hrest fun values => rfl
      · rw [hevents]
        congr 1
        exact Outcome.events_congr hresult fun _ => hmore
    case isFalse hskips =>
      rw [if_neg hskips] at h
      exact evalChildren_agree r room (index + 1) rest h

end

/-! ## What is bound -/

/-- An assignment that passes its check binds its own target. -/
theorem target?_of_event? {r : Rule} {children : List Node} {name : String} {value found : Value}
    (hcheck : r.check children = .ok ())
    (h : r.event? children value = some (.bound name found)) : r.target? children = some name := by
  unfold Rule.event? at h
  split at h
  · cases h
    rename_i kind _ _
    by_cases hkind : kind = Terminal.name.label
    · simp [Rule.target?, hkind]
    · simp [Rule.check, isName, hkind] at hcheck
  · cases h
  · cases h

theorem mem_target?_of_bound {r : Rule} {room : Room} {children : List Node} {values : List Value}
    {name : String} {value : Value} (hcheck : r.check children = .ok ())
    (h : Event.bound name value ∈ r.events room children values) :
    name ∈ (r.target? children).toList := by
  unfold Rule.events at h
  split at h
  · rw [Option.mem_toList] at h ⊢
    exact target?_of_event? hcheck h
  · cases h

mutual

/-- An evaluation binds only names that the tree assigns to. -/
theorem mem_assigned_of_bound {name : String} {value : Value} (room : Room) (env : Environment) :
    (node : Node) → .bound name value ∈ node.events room env → name ∈ node.assigned
  | .foreign _, h => by simp [events] at h
  | .token .., h => by simp [events] at h
  | .rule label children position, h => by
    rw [events] at h
    rw [assigned]
    cases henter : room.enter? label with
    | none => simp [henter] at h
    | some inner =>
      cases hrule : Rule.ofLabel? label with
      | none => simp [henter, hrule] at h
      | some r =>
        simp only [henter, hrule] at h ⊢
        obtain ⟨⟨⟩, hcheck, h⟩ := Outcome.mem_events.1 h
        rw [Outcome.result_ofExcept_eq_ok] at hcheck
        rw [List.mem_append] at h ⊢
        obtain h | h := h
        · exact .inl (mem_childAssigned_of_bound r inner _ 0 children h)
        · obtain ⟨values, -, h⟩ := Outcome.mem_events.1 h
          exact .inr (mem_target?_of_bound hcheck h)

theorem mem_childAssigned_of_bound {name : String} {value : Value} (r : Rule) (room : Room)
    (env : Environment) (index : Nat) : (children : List Node) →
    .bound name value ∈ childEvents r room env index children →
    name ∈ childAssigned r index children
  | [], h => by simp [childEvents] at h
  | node :: rest, h => by
    rw [childEvents] at h
    rw [childAssigned]
    split
    case isTrue hevaluates =>
      rw [if_pos hevaluates, List.mem_append] at h
      rw [List.mem_append]
      obtain h | h := h
      · exact .inl (mem_assigned_of_bound room env node h)
      · obtain ⟨_, -, h⟩ := Outcome.mem_events.1 h
        exact .inr (mem_childAssigned_of_bound r room _ (index + 1) rest h)
    case isFalse hskips =>
      rw [if_neg hskips] at h
      exact mem_childAssigned_of_bound r room env (index + 1) rest h

end

end Node

namespace Event

/-- The text that events write. -/
def output : List Event → String
  | [] => ""
  | .bound .. :: rest => output rest
  | .printed value :: rest => value.display ++ "\n" ++ output rest

variable {env : Environment} {events : List Event} {name : String}

theorem get?_replay_of_notMem (h : ∀ value, .bound name value ∉ events) :
    (replay events env).bindings.get? name = env.bindings.get? name := by
  induction events generalizing env with
  | nil => rfl
  | cons event events ih =>
    have hrest : (replay events (event.apply env)).bindings.get? name =
        (event.apply env).bindings.get? name :=
      ih fun value hmem => h value (List.mem_cons_of_mem event hmem)
    refine hrest.trans ?_
    cases event with
    | printed value => rfl
    | bound other value =>
      have hother : name ≠ other := by
        rintro rfl
        exact h value List.mem_cons_self
      rw [apply, Environment.define, Bindings.get?_define, if_neg hother]

/-- No event takes a binding away. -/
theorem contains_replay (h : env.bindings.contains name) (events : List Event) :
    (replay events env).bindings.contains name := by
  induction events generalizing env with
  | nil => exact h
  | cons event events ih =>
    apply ih
    cases event with
    | printed value => exact h
    | bound other value =>
      show (env.define other value).bindings.contains name
      rw [Environment.define, Bindings.contains, Bindings.get?_define]
      split
      · rfl
      · exact h

theorem written_replay (events : List Event) (env : Environment) :
    (replay events env).written = env.written ++ output events := by
  induction events generalizing env with
  | nil => exact String.append_empty.symm
  | cons event events ih =>
    refine (ih (event.apply env)).trans ?_
    cases event with
    | bound name value => rfl
    | printed value => simp only [apply, Environment.writeLine, output, String.append_assoc]

end Event

/-- Two environments have the same bindings of the names that a tree reads.  Evaluating it there
gives the same value or the same fault, and the same events in the same order.  They bind only names
that the tree assigns to; so at any point of the evaluation, failed or not, every other name has the
binding it had, no name has lost its binding, and text has only been added to what was written. -/
theorem evaluate_footprint (tree : Node) {env env' : Environment}
    (h : ∀ read ∈ tree.reads, env.bindings.get? read.1 = env'.bindings.get? read.1) :
    let events := tree.events (some nestingLimit) env
    (evaluate tree env').result = (evaluate tree env).result ∧
    tree.events (some nestingLimit) env' = events ∧
    (∀ name value, .bound name value ∈ events → name ∈ tree.assigned) ∧
    ∀ start ∈ [env, env'], (evaluate tree start).env = Event.replay events start ∧
      ∀ done, done <+: events →
        (∀ name ∉ tree.assigned,
          (Event.replay done start).bindings.get? name = start.bindings.get? name) ∧
        (∀ name, start.bindings.contains name → (Event.replay done start).bindings.contains name) ∧
        (Event.replay done start).written = start.written ++ Event.output done := by
  intro events
  obtain ⟨hresult, hevents⟩ := tree.eval_agree (some nestingLimit) h
  have hbound (name : String) (value : Value) (hmem : .bound name value ∈ events) :
      name ∈ tree.assigned := tree.mem_assigned_of_bound _ _ hmem
  refine ⟨hresult.symm, hevents.symm, hbound, fun start hstart => ⟨?_, ?_⟩⟩
  · rw [evaluate, Node.env_eval]
    obtain rfl | rfl : start = env ∨ start = env' := by simpa using hstart
    · rfl
    · rw [← hevents]
  · intro done hdone
    refine ⟨fun name hname => ?_, fun name hname => Event.contains_replay hname done,
      Event.written_replay done start⟩
    exact Event.get?_replay_of_notMem fun value hmem => hname (hbound name value (hdone.mem hmem))

/-- A sum whose operands bind a name and print it. -/
def busySum : Node :=
  .rule Rule.add.label
    [.rule Rule.assign.label
      [.token Terminal.name.label "x" none, .token Terminal.name.label "y" none] none,
      .token Terminal.plus.label "+" none,
      .rule Rule.print.label [.token Terminal.name.label "x" none] none] none

/-- The name that is copied, bound to a text. -/
def copiedBinding : Environment := ({} : Environment).define "y" (.text "a")

/-- The same with another name bound. -/
def furtherBinding : Environment := copiedBinding.define "z" .nil

theorem evaluate_busySum :
    (∀ read ∈ busySum.reads,
        copiedBinding.bindings.get? read.1 = furtherBinding.bindings.get? read.1) ∧
      (evaluate busySum copiedBinding).result = .ok (.text "aa") ∧
      (evaluate busySum furtherBinding).result = .ok (.text "aa") ∧
      (evaluate busySum furtherBinding).env.bindings.get? "z" = some .nil := by
  have hagree : ∀ read ∈ busySum.reads,
      copiedBinding.bindings.get? read.1 = furtherBinding.bindings.get? read.1 := by decide
  have hvalue : (evaluate busySum copiedBinding).result = .ok (.text "aa") := rfl
  obtain ⟨hresult, -, -, hframe⟩ := evaluate_footprint busySum hagree
  obtain ⟨henv, hdone⟩ := hframe furtherBinding (by simp)
  refine ⟨hagree, hvalue, hresult.trans hvalue, ?_⟩
  rw [henv]
  exact (hdone _ (List.prefix_refl _)).1 "z" (by decide)

end Reckon
