import Reckon.Evaluation.Basic

/-!
# The events of an evaluation

An evaluation changes its environment by binding names and printing values.  `Node.events` lists
these events in order, and `Node.env_eval` says that there is nothing else: the environment after
an evaluation, failed or not, is the one before it with the events replayed.

A property of values that every step keeps (`Value.Kept`) then holds of all values that an
evaluation binds, prints or gives (`Value.Kept.eval`).
-/

namespace Reckon

/-- A change of the environment. -/
inductive Event where
  | bound (name : String) (value : Value)
  | printed (value : Value)

namespace Event

/-- The value that is bound or printed. -/
def value : Event → Value
  | .bound _ value => value
  | .printed value => value

/-- The environment after an event. -/
def apply : Event → Environment → Environment
  | .bound name value, env => env.define name value
  | .printed value, env => env.writeLine value.display

/-- The environment after some events. -/
def replay (events : List Event) (env : Environment) : Environment :=
  events.foldl (fun env event => event.apply env) env

@[simp] theorem replay_nil (env : Environment) : replay [] env = env := rfl

@[simp] theorem replay_append (events more : List Event) (env : Environment) :
    replay (events ++ more) env = replay more (replay events env) := List.foldl_append

end Event

namespace Rule

/-- The event of a rule node that has its value. -/
def event? : Rule → List Node → Value → Option Event
  | .assign, [.token _ name _, _], value => some (.bound name value)
  | .print, _, value => some (.printed value)
  | _, _, _ => none

theorem effect_eq (rule : Rule) (children : List Node) (value : Value) (env : Environment) :
    rule.effect children value env = Event.replay (rule.event? children value).toList env := by
  fun_cases event? rule children value
  · rfl
  · rfl
  · rename_i hprint hassign
    unfold effect
    split
    · exact absurd rfl (hassign _ _ _ _ rfl)
    · exact absurd rfl hprint
    · rfl

theorem value_of_event? {rule : Rule} {children : List Node} {value : Value} {event : Event}
    (h : rule.event? children value = some event) : event.value = value := by
  unfold event? at h
  split at h
  · cases h
    rfl
  · cases h
    rfl
  · cases h

/-- The events of the last step of a rule node. -/
def events (rule : Rule) (room : Room) (children : List Node) (values : List Value) : List Event :=
  match rule.value room children values with
  | .ok value => (rule.event? children value).toList
  | .error _ => []

theorem env_finish (rule : Rule) (room : Room) (children : List Node) (values : List Value)
    (env : Environment) :
    (rule.finish room children values env).env =
      Event.replay (rule.events room children values) env := by
  unfold finish events
  cases rule.value room children values with
  | ok value => exact effect_eq rule children value env
  | error cause => rfl

theorem result_finish_eq_ok {rule : Rule} {room : Room} {children : List Node}
    {values : List Value} {env : Environment} {value : Value} :
    (rule.finish room children values env).result = .ok value ↔
      rule.value room children values = .ok value := by
  unfold finish
  cases rule.value room children values with
  | ok found => simp
  | error cause => simp

end Rule

/-! ## Computations in a row -/

namespace Outcome

variable {α β : Type} {outcome : Outcome α} {env : Environment} {e : Except Cause α} {a : α}

/-- The events that follow a success. -/
def events (outcome : Outcome α) (next : α → Environment → List Event) : List Event :=
  match outcome with
  | ⟨.ok a, env⟩ => next a env
  | ⟨.error _, _⟩ => []

theorem mem_events {next : α → Environment → List Event} {event : Event} :
    event ∈ outcome.events next ↔ ∃ a, outcome.result = .ok a ∧ event ∈ next a outcome.env := by
  obtain ⟨result, env⟩ := outcome
  cases result with
  | ok a => simp [events]
  | error fault => simp [events]

theorem events_eq_nil {next : α → Environment → List Event} (h : ∀ a env, next a env = []) :
    outcome.events next = [] := by
  unfold events
  split
  · exact h _ _
  · rfl

theorem result_andThen_eq_ok {next : α → Environment → Outcome β} {b : β} :
    (outcome.andThen next).result = .ok b ↔
      ∃ a, outcome.result = .ok a ∧ (next a outcome.env).result = .ok b := by
  obtain ⟨result, env⟩ := outcome
  cases result with
  | ok a => simp [andThen]
  | error fault => simp [andThen]

theorem result_locate_eq_ok {room : Room} {node : Node} :
    (outcome.locate room node).result = .ok a ↔ outcome.result = .ok a := by
  obtain ⟨result, env⟩ := outcome
  cases result with
  | ok found => rfl
  | error fault => simp [locate]

theorem result_ofExcept_eq_ok : (ofExcept env e).result = .ok a ↔ e = .ok a := by
  cases e with
  | ok found => simp [ofExcept]
  | error cause => simp [ofExcept]

@[simp] theorem env_locate (room : Room) (node : Node) (outcome : Outcome α) :
    (outcome.locate room node).env = outcome.env := by
  obtain ⟨result, env⟩ := outcome
  cases result <;> rfl

@[simp] theorem env_ofExcept (env : Environment) (e : Except Cause α) :
    (ofExcept env e).env = env := by
  cases e <;> rfl

@[simp] theorem env_andThen_ok (outcome : Outcome α) (f : α → β) :
    (outcome.andThen fun a env => ⟨.ok (f a), env⟩).env = outcome.env := by
  obtain ⟨result, env⟩ := outcome
  cases result <;> rfl

/-- The events of two computations in a row. -/
theorem env_andThen {next : α → Environment → Outcome β} {events : List Event}
    {more : α → Environment → List Event} (h : outcome.env = Event.replay events env)
    (hnext : ∀ a env, (next a env).env = Event.replay (more a env) env) :
    (outcome.andThen next).env = Event.replay (events ++ outcome.events more) env := by
  rw [Event.replay_append, ← h]
  obtain ⟨result, env⟩ := outcome
  cases result with
  | ok a => exact hnext a env
  | error fault => rfl

end Outcome

namespace Node

mutual

/-- The events of evaluating a tree. -/
def events (room : Room) (env : Environment) : Node → List Event
  | .foreign _ => []
  | .token .. => []
  | .rule label children _ =>
    match room.enter? label, Rule.ofLabel? label with
    | some inner, some r =>
      (Outcome.ofExcept env (r.check children)).events fun _ env =>
        childEvents r inner env 0 children ++
          (evalChildren r inner env 0 children).events fun values _ =>
            r.events inner children values
    | _, _ => []

/-- The events of evaluating those of a node's children that its rule evaluates. -/
def childEvents (r : Rule) (room : Room) (env : Environment) (index : Nat) : List Node → List Event
  | [] => []
  | node :: rest =>
    if r.evaluates index then
      node.events room env ++ (node.eval room env).events fun _ env =>
        childEvents r room env (index + 1) rest
    else childEvents r room env (index + 1) rest

end

mutual

/-- An evaluation leaves the environment that its events make. -/
theorem env_eval (room : Room) (env : Environment) :
    (node : Node) → (node.eval room env).env = Event.replay (node.events room env) env
  | .foreign _ => by simp [eval, events]
  | .token .. => by simp [eval, events]
  | .rule label children position => by
    rw [eval, events]
    cases room.enter? label with
    | none => rfl
    | some inner =>
      cases Rule.ofLabel? label with
      | none => rfl
      | some r =>
        simp only [Outcome.env_locate]
        cases r.check children with
        | error cause => rfl
        | ok =>
          apply Outcome.env_andThen (env_evalChildren r inner env 0 children)
          intro values env
          exact r.env_finish inner children values env

theorem env_evalChildren (r : Rule) (room : Room) (env : Environment) (index : Nat) :
    (children : List Node) → (evalChildren r room env index children).env =
      Event.replay (childEvents r room env index children) env
  | [] => by simp [evalChildren, childEvents]
  | node :: rest => by
    rw [evalChildren, childEvents]
    split
    · apply Outcome.env_andThen (env_eval room env node)
      intro value env
      rw [Outcome.env_andThen_ok]
      exact env_evalChildren r room env (index + 1) rest
    · exact env_evalChildren r room env (index + 1) rest

end

end Node

/-! ## Properties that every step keeps -/

/-- Every bound value has a property. -/
def Bindings.All (P : Value → Prop) (bindings : Bindings) : Prop :=
  ∀ name value, bindings.get? name = some value → P value

namespace Bindings

variable {P : Value → Prop} {bindings : Bindings} {env : Environment}

theorem all_empty (P : Value → Prop) : ({} : Bindings).All P := by
  intro name value h
  cases h

theorem All.define (h : bindings.All P) {value : Value} (hv : P value) (name : String) :
    (bindings.define name value).All P := by
  intro other found hfound
  rw [get?_define] at hfound
  split at hfound
  · cases hfound
    exact hv
  · exact h other found hfound

theorem All.replay {events : List Event} (h : env.bindings.All P)
    (hevents : ∀ event ∈ events, P event.value) : (Event.replay events env).bindings.All P := by
  induction events generalizing env with
  | nil => exact h
  | cons event events ih =>
    rw [List.forall_mem_cons] at hevents
    apply ih _ hevents.2
    cases event with
    | bound name value => exact h.define hevents.1 name
    | printed value => exact h

end Bindings

/-- A property that passes from bindings to tokens and from operands to rule nodes. -/
structure Value.Kept (P : Value → Prop) : Prop where
  token {bindings : Bindings} {kind text : String} {value : Value} :
    bindings.All P → tokenValue bindings kind text = .ok value → P value
  rule {rule : Rule} {room : Room} {children : List Node} {values : List Value} {value : Value} :
    (∀ operand ∈ values, P operand) → rule.value room children values = .ok value → P value

namespace Value.Kept

variable {P : Value → Prop}

/-- The event of a rule node is about its own value. -/
theorem events (hP : Kept P) {rule : Rule} {room : Room} {children : List Node}
    {values : List Value} (h : ∀ operand ∈ values, P operand) :
    ∀ event ∈ rule.events room children values, P event.value := by
  intro event hevent
  unfold Rule.events at hevent
  split at hevent
  · rename_i value hvalue
    rw [Option.mem_toList] at hevent
    rw [Rule.value_of_event? hevent]
    exact hP.rule h hvalue
  · cases hevent

mutual

/-- What holds of the bound values holds of all that an evaluation binds, prints or gives. -/
theorem eval (hP : Kept P) (room : Room) {env : Environment} (henv : env.bindings.All P) :
    (node : Node) → (∀ event ∈ node.events room env, P event.value) ∧
      ∀ value, (node.eval room env).result = .ok value → P value
  | .foreign _ => by
    rw [Node.eval, Node.events]
    exact ⟨by simp, by simp [Outcome.ofExcept]⟩
  | .token kind word position => by
    rw [Node.eval, Node.events]
    refine ⟨by simp, fun value h => ?_⟩
    rw [Outcome.result_locate_eq_ok, Outcome.result_ofExcept_eq_ok] at h
    exact hP.token henv h
  | .rule label children position => by
    rw [Node.eval, Node.events]
    cases room.enter? label with
    | none => exact ⟨by simp, by simp [Outcome.ofExcept]⟩
    | some inner =>
      cases Rule.ofLabel? label with
      | none => exact ⟨by simp, by simp [Outcome.ofExcept, Outcome.locate]⟩
      | some r =>
        have hchildren := evalChildren hP r inner henv 0 children
        constructor
        · intro event hevent
          obtain ⟨-, -, hevent⟩ := Outcome.mem_events.1 hevent
          rw [Outcome.env_ofExcept, List.mem_append] at hevent
          obtain hevent | hevent := hevent
          · exact hchildren.1 event hevent
          · obtain ⟨values, hvalues, hevent⟩ := Outcome.mem_events.1 hevent
            exact hP.events (hchildren.2 values hvalues) event hevent
        · intro value h
          rw [Outcome.result_locate_eq_ok, Outcome.result_andThen_eq_ok] at h
          obtain ⟨-, -, h⟩ := h
          rw [Outcome.env_ofExcept, Outcome.result_andThen_eq_ok] at h
          obtain ⟨values, hvalues, h⟩ := h
          rw [Rule.result_finish_eq_ok] at h
          exact hP.rule (hchildren.2 values hvalues) h

theorem evalChildren (hP : Kept P) (r : Rule) (room : Room) {env : Environment}
    (henv : env.bindings.All P) (index : Nat) :
    (children : List Node) →
      (∀ event ∈ Node.childEvents r room env index children, P event.value) ∧
        ∀ values, (Node.evalChildren r room env index children).result = .ok values →
          ∀ value ∈ values, P value
  | [] => by simp [Node.evalChildren, Node.childEvents]
  | node :: rest => by
    rw [Node.evalChildren, Node.childEvents]
    split
    · have hnode := eval hP room henv node
      have hafter : (node.eval room env).env.bindings.All P := by
        rw [Node.env_eval]
        exact henv.replay hnode.1
      have hrest := evalChildren hP r room hafter (index + 1) rest
      constructor
      · intro event hevent
        rw [List.mem_append, Outcome.mem_events] at hevent
        obtain hevent | ⟨value, -, hevent⟩ := hevent
        · exact hnode.1 event hevent
        · exact hrest.1 event hevent
      · intro values h
        rw [Outcome.result_andThen_eq_ok] at h
        obtain ⟨value, hvalue, h⟩ := h
        rw [Outcome.result_andThen_eq_ok] at h
        obtain ⟨others, hothers, h⟩ := h
        cases h
        exact List.forall_mem_cons.2 ⟨hnode.2 value hvalue, hrest.2 others hothers⟩
    · exact evalChildren hP r room henv (index + 1) rest

end

end Value.Kept

end Reckon
