import Reckon.Proofs.Depth
import Reckon.Proofs.Events
import Reckon.Proofs.Origin

/-!
# Evaluation cut off at a limit

A limit of the stack cuts an evaluation off and does nothing else.  `Node.moments` lists what the
evaluation without a limit does: the rule nodes that it enters, to evaluate them, to describe them
in a message or to search them for a position, each with the frames that are on the stack then, and
the changes of the environment in between.  With a limit the evaluation goes the same way up to the
first moment beyond it: `Node.eval_cut`.
-/

namespace Reckon

/-- A moment of an evaluation.  The stack counts the frames that the rule nodes around a node take,
and those of the node itself. -/
inductive Moment where
  /-- A rule node is entered in order to evaluate it. -/
  | evaluates (stack : Nat)
  /-- A rule node is entered in order to describe it. -/
  | describes (stack : Nat)
  /-- A rule node is entered in order to find a position for a fault. -/
  | searches (stack : Nat)
  /-- The environment changes. -/
  | changes (event : Event)

namespace Moment

/-- The frames on the stack when a node is entered, if one is. -/
def stack : Moment → Nat
  | .evaluates stack | .describes stack | .searches stack => stack
  | .changes _ => 0

/-- The change of the environment, if it changes. -/
def event? : Moment → Option Event
  | .changes event => some event
  | _ => none

/-- The changes of the environment. -/
def events (moments : List Moment) : List Event := moments.filterMap event?

/-- Moments in which nodes are entered for one purpose. -/
def Alike (purpose : Nat → Moment) (moments : List Moment) : Prop :=
  ∀ moment ∈ moments, ∃ stack, moment = purpose stack

/-- Moments in which nothing changes. -/
def Quiet (moments : List Moment) : Prop := ∀ moment ∈ moments, moment.event? = none

@[simp] theorem events_append (moments more : List Moment) :
    events (moments ++ more) = events moments ++ events more := List.filterMap_append

theorem events_cons (moment : Moment) (rest : List Moment) :
    events (moment :: rest) = moment.event?.toList ++ events rest := by
  cases moment <;> rfl

theorem Quiet.events_eq {moments : List Moment} (h : Quiet moments) : events moments = [] :=
  List.filterMap_eq_nil_iff.2 h

section

variable {purpose : Nat → Moment} {moments more : List Moment}

theorem alike_nil : Alike purpose [] := List.forall_mem_nil _

theorem Alike.cons (stack : Nat) (h : Alike purpose moments) :
    Alike purpose (purpose stack :: moments) := List.forall_mem_cons.2 ⟨⟨stack, rfl⟩, h⟩

theorem Alike.append (h : Alike purpose moments) (hmore : Alike purpose more) :
    Alike purpose (moments ++ more) := List.forall_mem_append.2 ⟨h, hmore⟩

theorem Alike.quiet (h : Alike purpose moments)
    (hpurpose : ∀ stack, (purpose stack).event? = none) : Quiet moments := by
  intro moment hmoment
  obtain ⟨stack, rfl⟩ := h moment hmoment
  exact hpurpose stack

end

theorem events_changes (changes : List Event) : events (changes.map .changes) = changes := by
  rw [events, List.filterMap_map]
  exact List.filterMap_some

end Moment

/-! ## Descriptions and searches -/

namespace Node

mutual

/-- The moments of describing a tree on top of a stack. -/
def described (stack : Nat) : Node → List Moment
  | .rule _ children _ =>
    .describes (stack + descriptionFrames) :: describedAll (stack + descriptionFrames) children
  | .token .. => []
  | .foreign _ => []

/-- The moments of describing the trees of a list.  A value that is not shown ends them. -/
def describedAll (stack : Nat) : List Node → List Moment
  | [] => []
  | node :: rest =>
    node.described stack ++ if (node.obstacle? none).isSome then [] else describedAll stack rest

end

mutual

/-- The moments of searching a tree for a position on top of a stack. -/
def searched (stack : Nat) : Node → List Moment
  | .rule _ children none => .searches (stack + 1) :: searchedAll (stack + 1) children
  | .rule _ _ (some _) => []
  | .token .. => []
  | .foreign _ => []

/-- The moments of searching the trees of a list.  The first position ends them. -/
def searchedAll (stack : Nat) : List Node → List Moment
  | [] => []
  | node :: rest =>
    node.searched stack ++ if node.position?.isSome then [] else searchedAll stack rest

end

mutual

theorem alike_described (stack : Nat) : (node : Node) →
    Moment.Alike .describes (node.described stack)
  | .rule _ children _ => by
    rw [described]
    exact (alike_describedAll _ children).cons _
  | .token .. | .foreign _ => Moment.alike_nil

theorem alike_describedAll (stack : Nat) : (nodes : List Node) →
    Moment.Alike .describes (describedAll stack nodes)
  | [] => Moment.alike_nil
  | node :: rest => by
    rw [describedAll]
    refine (alike_described stack node).append ?_
    split
    · exact Moment.alike_nil
    · exact alike_describedAll stack rest

end

theorem quiet_described (stack : Nat) (node : Node) : Moment.Quiet (node.described stack) :=
  (alike_described stack node).quiet fun _ => rfl

mutual

theorem alike_searched (stack : Nat) : (node : Node) →
    Moment.Alike .searches (node.searched stack)
  | .rule _ children none => by
    rw [searched]
    exact (alike_searchedAll _ children).cons _
  | .rule _ _ (some _) | .token .. | .foreign _ => Moment.alike_nil

theorem alike_searchedAll (stack : Nat) : (nodes : List Node) →
    Moment.Alike .searches (searchedAll stack nodes)
  | [] => Moment.alike_nil
  | node :: rest => by
    rw [searchedAll]
    refine (alike_searched stack node).append ?_
    split
    · exact Moment.alike_nil
    · exact alike_searchedAll stack rest

end

theorem quiet_searched (stack : Nat) (node : Node) : Moment.Quiet (node.searched stack) :=
  (alike_searched stack node).quiet fun _ => rfl

mutual

/-- Describing a tree stays within a limit just if the room up to it is no obstacle. -/
theorem described_within {stack limit : Nat} (h : stack ≤ limit) : (node : Node) →
    ((∀ moment ∈ node.described stack, moment.stack ≤ limit) ↔
      node.obstacle? (some (limit - stack)) ≠ some .depth)
  | .rule _ children _ => by
    rw [described, List.forall_mem_cons, obstacle?]
    by_cases hself : stack + descriptionFrames ≤ limit
    · rw [Room.take?_some (by omega), Nat.sub_sub]
      exact (and_iff_right hself).trans (describedAll_within hself children)
    · rw [Room.take?_eq_none (by omega)]
      exact iff_of_false (fun hall => hself hall.1) (absurd rfl)
  | .token .. => by simp [described, obstacle?]
  | .foreign value => by
    rw [described, obstacle?]
    refine iff_of_true (by simp) ?_
    split <;> nofun

theorem describedAll_within {stack limit : Nat} (h : stack ≤ limit) : (nodes : List Node) →
    ((∀ moment ∈ describedAll stack nodes, moment.stack ≤ limit) ↔
      firstObstacle? (some (limit - stack)) nodes ≠ some .depth)
  | [] => by simp [describedAll, firstObstacle?]
  | node :: rest => by
    rw [describedAll, firstObstacle?, List.forall_mem_append, described_within h node]
    -- up to a lack of room the obstacles are those that there are without a bound
    obtain hdepth | heq := node.obstacle?_upToDepth (Room.within_none (some (limit - stack)))
    · rw [hdepth]
      exact iff_of_false (fun hall => hall.1 rfl) (absurd rfl)
    · rw [heq, and_iff_right node.obstacle?_none_ne]
      cases hnode : node.obstacle? none with
      | none => exact describedAll_within h rest
      | some obstacle =>
        have hne : some obstacle ≠ some .depth := hnode ▸ node.obstacle?_none_ne
        exact iff_of_true (by simp) hne

end

mutual

/-- Searching a tree stays within a limit just if there is room for its reach. -/
theorem searched_within {stack limit : Nat} (h : stack ≤ limit) : (node : Node) →
    ((∀ moment ∈ node.searched stack, moment.stack ≤ limit) ↔ stack + node.reach ≤ limit)
  | .rule _ children none => by
    rw [searched, List.forall_mem_cons, reach]
    constructor
    · rintro ⟨hself, hchildren⟩
      have hself : stack + 1 ≤ limit := hself
      have hreaches := (searchedAll_within hself children).1 hchildren
      omega
    · intro hreach
      have hself : stack + 1 ≤ limit := by omega
      exact ⟨hself, (searchedAll_within hself children).2 (by omega)⟩
  | .rule _ _ (some _) | .token .. | .foreign _ => by simp [searched, reach, h]

theorem searchedAll_within {stack limit : Nat} (h : stack ≤ limit) : (nodes : List Node) →
    ((∀ moment ∈ searchedAll stack nodes, moment.stack ≤ limit) ↔
      stack + reaches nodes ≤ limit)
  | [] => by simp [searchedAll, reaches, h]
  | node :: rest => by
    rw [searchedAll, reaches, List.forall_mem_append, searched_within h node]
    split
    · simp
    · rw [searchedAll_within h rest]
      omega

end

end Node

/-! ## The moments of an evaluation without a limit -/

/-- The moments of the last step of a rule node.  A node in the place of an operator that is not a
token is described. -/
def Rule.moments (r : Rule) (stack : Nat) (children : List Node) (values : List Value) :
    List Moment :=
  match r.value none children values with
  | .ok value => (r.event? children value).toList.map .changes
  | .error cause => (cause.described?.map (Node.described stack)).getD []

namespace Outcome

variable {α : Type}

/-- The moments that follow a success. -/
def moments (outcome : Outcome α) (next : α → Environment → List Moment) : List Moment :=
  match outcome with
  | ⟨.ok a, env⟩ => next a env
  | ⟨.error _, _⟩ => []

/-- The moments of placing a fault, if there is one that still needs a position. -/
def placing (outcome : Outcome α) (stack : Nat) (node : Node) : List Moment :=
  match outcome.result with
  | .ok _ => []
  | .error fault =>
    if fault.cause.isPlaceless || fault.position.isSome then [] else node.searched stack

theorem quiet_placing (outcome : Outcome α) (stack : Nat) (node : Node) :
    Moment.Quiet (outcome.placing stack node) := by
  unfold placing
  split
  · exact List.forall_mem_nil _
  split
  · exact List.forall_mem_nil _
  · exact node.quiet_searched stack

end Outcome

namespace Node

/-- What a rule node comes to before its fault is placed. -/
def inside (room : Room) (env : Environment) (label : String) (children : List Node) :
    Outcome Value :=
  match Rule.ofLabel? label with
  | none => .ofExcept env (.error (.unsupportedNode (some label)))
  | some r =>
    (Outcome.ofExcept env (r.check children)).andThen fun _ env =>
      (evalChildren r room env 0 children).andThen fun values env =>
        r.finish room children values env

theorem eval_eq_inside (room : Room) (env : Environment) (label : String) (children : List Node)
    (position : Option Position) :
    (Node.rule label children position).eval room env =
      match room.enter? label with
      | none => .ofExcept env (.error .nestedTooDeeply)
      | some inner =>
        (inside inner env label children).locate room (.rule label children position) := by
  rw [eval]
  rfl

mutual

/-- The moments of evaluating, without a limit, a tree on top of a stack. -/
def moments (stack : Nat) (env : Environment) : Node → List Moment
  | .foreign _ => []
  | .token .. => []
  | .rule label children position =>
    .evaluates (stack + labelFrames label) ::
      ((match Rule.ofLabel? label with
        | none => []
        | some r =>
          (Outcome.ofExcept env (r.check children)).moments fun _ env =>
            childMoments r (stack + labelFrames label) env 0 children ++
              (evalChildren r none env 0 children).moments fun values _ =>
                r.moments (stack + labelFrames label) children values) ++
        (inside none env label children).placing stack (.rule label children position))

/-- The moments of evaluating those of a node's children that its rule evaluates. -/
def childMoments (r : Rule) (stack : Nat) (env : Environment) (index : Nat) :
    List Node → List Moment
  | [] => []
  | node :: rest =>
    if r.evaluates index then
      node.moments stack env ++ (node.eval none env).moments fun _ env =>
        childMoments r stack env (index + 1) rest
    else childMoments r stack env (index + 1) rest

end

end Node

/-! ### Events -/

theorem Outcome.events_moments {α : Type} (outcome : Outcome α)
    (next : α → Environment → List Moment) :
    Moment.events (outcome.moments next) =
      outcome.events fun a env => Moment.events (next a env) := by
  obtain ⟨result, env⟩ := outcome
  cases result <;> rfl

theorem Cause.quiet_described? (cause : Cause) (stack : Nat) :
    Moment.Quiet ((cause.described?.map (Node.described stack)).getD []) := by
  cases cause.described? with
  | none => exact List.forall_mem_nil _
  | some found => exact found.quiet_described stack

theorem Rule.events_moments (r : Rule) (stack : Nat) (children : List Node)
    (values : List Value) :
    Moment.events (r.moments stack children values) = r.events none children values := by
  unfold moments events
  cases r.value none children values with
  | ok value => exact Moment.events_changes _
  | error cause => exact (cause.quiet_described? stack).events_eq

namespace Node

mutual

/-- The changes among the moments are the events of the evaluation without a limit. -/
theorem events_moments (stack : Nat) (env : Environment) : (node : Node) →
    Moment.events (node.moments stack env) = node.events none env
  | .foreign _ | .token .. => by
    rw [moments, events]
    rfl
  | .rule label children position => by
    have henter : Room.enter? none label = some none := rfl
    rw [moments, events, henter, Moment.events_cons, Moment.events_append,
      (Outcome.quiet_placing _ _ _).events_eq, List.append_nil]
    cases Rule.ofLabel? label with
    | none => rfl
    | some r =>
      apply (Outcome.events_moments _ _).trans
      simp only [Moment.events_append, events_childMoments r, Outcome.events_moments,
        Rule.events_moments]

theorem events_childMoments (r : Rule) (stack : Nat) (env : Environment) (index : Nat) :
    (children : List Node) →
    Moment.events (childMoments r stack env index children) = childEvents r none env index children
  | [] => by
    rw [childMoments, childEvents]
    rfl
  | node :: rest => by
    rw [childMoments, childEvents]
    split
    · simp only [Moment.events_append, events_moments stack env node, Outcome.events_moments,
        events_childMoments r stack _ (index + 1) rest]
    · exact events_childMoments r stack env (index + 1) rest

end

theorem replay_moments (stack : Nat) (env : Environment) (node : Node) :
    (node.eval none env).env = Event.replay (Moment.events (node.moments stack env)) env := by
  rw [events_moments, env_eval]

theorem replay_childMoments (r : Rule) (stack : Nat) (env : Environment) (index : Nat)
    (children : List Node) :
    (evalChildren r none env index children).env =
      Event.replay (Moment.events (childMoments r stack env index children)) env := by
  rw [events_childMoments, env_evalChildren]

end Node

/-! ## Cutting off -/

namespace Outcome

variable {α β : Type} {limit : Nat} {env : Environment} {moments : List Moment} {y : Outcome α}

/-- A failure for lack of room. -/
def tooDeep (env : Environment) : Outcome α := ⟨.error ⟨.nestedTooDeeply, none⟩, env⟩

/-- An outcome cut off in front of the first moment beyond a limit, with the changes up to there. -/
def cut (limit : Nat) (y : Outcome α) (env : Environment) : List Moment → Outcome α
  | [] => y
  | moment :: rest =>
    if moment.stack ≤ limit then y.cut limit (Event.replay moment.event?.toList env) rest
    else tooDeep env

/-- Either all moments are within the limit, or there is a first one beyond it. -/
theorem cut_cases (limit : Nat) (y : Outcome α) (env : Environment) (moments : List Moment) :
    ((∀ moment ∈ moments, moment.stack ≤ limit) ∧ y.cut limit env moments = y) ∨
      ∃ before moment after, moments = before ++ moment :: after ∧
        (∀ earlier ∈ before, earlier.stack ≤ limit) ∧ limit < moment.stack ∧
        y.cut limit env moments = tooDeep (Event.replay (Moment.events before) env) := by
  induction moments generalizing env with
  | nil => exact .inl ⟨by simp, rfl⟩
  | cons moment rest ih =>
    rw [cut]
    split
    case isTrue hwithin =>
      obtain ⟨hrest, hcut⟩ | ⟨before, first, after, rfl, hbefore, hbeyond, hcut⟩ :=
        ih (Event.replay moment.event?.toList env)
      · exact .inl ⟨List.forall_mem_cons.2 ⟨hwithin, hrest⟩, hcut⟩
      · refine .inr ⟨moment :: before, first, after, rfl, ?_, hbeyond, ?_⟩
        · exact List.forall_mem_cons.2 ⟨hwithin, hbefore⟩
        · rw [hcut, Moment.events_cons, Event.replay_append]
    case isFalse hbeyond =>
      exact .inr ⟨[], moment, rest, rfl, by simp, Nat.not_le.1 hbeyond, rfl⟩

theorem cut_of_within (h : ∀ moment ∈ moments, moment.stack ≤ limit) :
    y.cut limit env moments = y := by
  obtain ⟨-, hcut⟩ | ⟨before, moment, after, rfl, -, hbeyond, -⟩ := cut_cases limit y env moments
  · exact hcut
  · exact absurd (h moment (by simp)) (Nat.not_le.2 hbeyond)

/-- Nothing changes while nodes are looked at, and one of them is beyond the limit. -/
theorem cut_of_quiet (hquiet : Moment.Quiet moments)
    (h : ¬ ∀ moment ∈ moments, moment.stack ≤ limit) : y.cut limit env moments = tooDeep env := by
  obtain ⟨hwithin, -⟩ | ⟨before, moment, after, rfl, -, -, hcut⟩ := cut_cases limit y env moments
  · exact absurd hwithin h
  · have hbefore : Moment.Quiet before := (List.forall_mem_append.1 hquiet).1
    rw [hcut, hbefore.events_eq, Event.replay_nil]

/-- The search for a position comes last, and is cut off where there is no room for it. -/
theorem cut_placing {stack : Nat} (h : stack ≤ limit) (node : Node) :
    (y.locate none node).cut limit y.env (y.placing stack node) =
      y.locate (some (limit - stack)) node := by
  obtain ⟨result, env⟩ := y
  cases result with
  | ok a => rfl
  | error fault =>
    simp only [placing, locate, Fault.locate]
    by_cases hkept : (fault.cause.isPlaceless || fault.position.isSome) = true
    · rw [if_pos hkept, if_pos hkept, if_pos hkept]
      rfl
    · have hwithin := node.searched_within h
      have hholds : Room.holds (some (limit - stack)) node.reach ↔ stack + node.reach ≤ limit := by
        rw [Room.holds_some]
        omega
      rw [if_neg hkept, if_neg hkept, if_neg hkept, if_pos (Room.holds_none _)]
      by_cases hreach : stack + node.reach ≤ limit
      · rw [cut_of_within (hwithin.2 hreach), if_pos (hholds.2 hreach)]
      · rw [cut_of_quiet (node.quiet_searched stack) (mt hwithin.1 hreach),
          if_neg (mt hholds.1 hreach)]
        rfl

theorem cut_locate {stack : Nat} (h : stack ≤ limit) (node : Node)
    (henv : y.env = Event.replay (Moment.events moments) env) :
    (y.locate none node).cut limit env (moments ++ y.placing stack node) =
      (y.cut limit env moments).locate (some (limit - stack)) node := by
  induction moments generalizing env with
  | nil =>
    obtain rfl : y.env = env := henv
    exact cut_placing h node
  | cons moment rest ih =>
    rw [Moment.events_cons, Event.replay_append] at henv
    rw [List.cons_append, cut, cut, ih henv]
    split <;> rfl

/-- Two computations in a row are cut off in the first one or in the second. -/
theorem cut_andThen (h : y.env = Event.replay (Moment.events moments) env)
    (next : α → Environment → Outcome β) (more : α → Environment → List Moment) :
    (y.andThen next).cut limit env (moments ++ y.moments more) =
      (y.cut limit env moments).andThen fun a env => (next a env).cut limit env (more a env) := by
  induction moments generalizing env with
  | nil =>
    -- Behind the last moment of the first computation the second one starts where it ended.
    obtain ⟨result, now⟩ := y
    obtain rfl : now = env := h
    cases result <;> rfl
  | cons moment rest ih =>
    rw [Moment.events_cons, Event.replay_append] at h
    rw [List.cons_append, cut, cut, ih h]
    split <;> rfl

/-- A computation that only changes the value of one is cut off where that is. -/
theorem cut_andThen_ok (f : α → β) :
    (y.andThen fun a env => ⟨.ok (f a), env⟩).cut limit env moments =
      (y.cut limit env moments).andThen fun a env => ⟨.ok (f a), env⟩ := by
  induction moments generalizing env with
  | nil => rfl
  | cons moment rest ih =>
    rw [cut, cut, ih]
    split <;> rfl

end Outcome

/-! ## Evaluation within a limit -/

theorem Rule.finish_cut {stack limit : Nat} (h : stack ≤ limit) (r : Rule) (children : List Node)
    (values : List Value) (env : Environment) :
    r.finish (some (limit - stack)) children values env =
      (r.finish none children values env).cut limit env (r.moments stack children values) := by
  rw [finish, finish, moments, value_inRoom]
  cases r.value none children values with
  | ok value =>
    refine (Outcome.cut_of_within ?_).symm
    intro moment hmoment
    obtain ⟨event, -, rfl⟩ := List.mem_map.1 hmoment
    exact Nat.zero_le limit
  | error cause =>
    -- Only the description of a node takes room, and nothing changes while it is written.
    simp only [Except.mapError, Cause.inRoom]
    cases cause.described? with
    | none => rfl
    | some found =>
      have hwithin := found.described_within h
      simp only [Option.bind_some, Option.map_some, Option.getD_some]
      by_cases hdepth : found.obstacle? (some (limit - stack)) = some .depth
      · rw [if_pos hdepth, Outcome.cut_of_quiet (found.quiet_described stack)
          fun hall => hwithin.1 hall hdepth]
        rfl
      · rw [if_neg hdepth, Outcome.cut_of_within (hwithin.2 hdepth)]

namespace Node

theorem locate_of_reach {α : Type} {node : Node} (h : node.reach = 0) (room : Room)
    (outcome : Outcome α) : outcome.locate room node = outcome.locate none node := by
  obtain ⟨result, env⟩ := outcome
  cases result with
  | ok a => rfl
  | error fault => simp only [Outcome.locate, Fault.locate, h, Room.holds_zero]

mutual

/-- Within a limit a tree is evaluated as without one, cut off in front of the first moment beyond
the limit. -/
theorem eval_cut {stack limit : Nat} (h : stack ≤ limit) (env : Environment) : (node : Node) →
    node.eval (some (limit - stack)) env =
      (node.eval none env).cut limit env (node.moments stack env)
  | .foreign _ => by
    rw [eval, eval, moments, Outcome.cut]
  | .token kind text position => by
    rw [eval, eval, moments, Outcome.cut, locate_of_reach rfl]
  | .rule label children position => by
    have hunbounded : Room.enter? none label = some none := rfl
    have hreplay := replay_moments stack env (.rule label children position)
    rw [eval_eq_inside, hunbounded] at hreplay
    rw [eval_eq_inside, eval_eq_inside, hunbounded]
    rw [moments] at hreplay ⊢
    rw [Moment.events_cons, Moment.events_append, (Outcome.quiet_placing _ _ _).events_eq,
      List.append_nil, Outcome.env_locate] at hreplay
    rw [Outcome.cut]
    by_cases hself : stack + labelFrames label ≤ limit
    · have henter : Room.enter? (some (limit - stack)) label =
          some (some (limit - (stack + labelFrames label))) := by
        rw [Room.enter?, Room.take?_some (by omega), Nat.sub_sub]
      rw [henter, Moment.stack, if_pos hself]
      refine Eq.trans ?_ (Outcome.cut_locate h _ hreplay).symm
      refine congrArg (Outcome.locate _ _) ?_
      rw [inside, inside]
      cases Rule.ofLabel? label with
      | none => rfl
      | some r =>
        have hcheck : (Outcome.ofExcept env (r.check children)).env =
            Event.replay (Moment.events []) env := Outcome.env_ofExcept env _
        refine Eq.trans ?_ (Outcome.cut_andThen hcheck _ _).symm
        refine congrArg (Outcome.andThen _) ?_
        funext _ env
        rw [Outcome.cut_andThen (replay_childMoments r _ env 0 children),
          evalChildren_cut hself r env 0 children]
        congr 1
        funext values env
        exact r.finish_cut hself children values env
    · -- The node itself is beyond the limit.
      have henter : Room.enter? (some (limit - stack)) label = none :=
        Room.take?_eq_none (by omega)
      rw [henter, Moment.stack, if_neg hself]
      rfl

theorem evalChildren_cut {stack limit : Nat} (h : stack ≤ limit) (r : Rule) (env : Environment)
    (index : Nat) : (children : List Node) →
    evalChildren r (some (limit - stack)) env index children =
      (evalChildren r none env index children).cut limit env
        (childMoments r stack env index children)
  | [] => by
    rw [evalChildren, evalChildren, childMoments, Outcome.cut]
  | node :: rest => by
    rw [evalChildren, evalChildren, childMoments]
    split
    · rw [Outcome.cut_andThen (node.replay_moments stack env), eval_cut h env node]
      congr 1
      funext value env
      rw [Outcome.cut_andThen_ok, evalChildren_cut h r env (index + 1) rest]
    · exact evalChildren_cut h r env (index + 1) rest

end

end Node

/-! ## The nesting limit -/

/-- A failure with an error of a class. -/
def Outcome.Raises {α : Type} (className : String) (outcome : Outcome α) : Prop :=
  ∃ fault, outcome.result = .error fault ∧ fault.cause.className = className

theorem Cause.className_eq_nestingDepthError {cause : Cause} :
    cause.className = "NestingDepthError" ↔ cause = .nestedTooDeeply := by
  cases cause <;> simp [className]

theorem Outcome.HasRoom.not_raises {α : Type} {x : Outcome α} (h : x.HasRoom) :
    ¬ x.Raises "NestingDepthError" := by
  rintro ⟨fault, hfault, hclass⟩
  exact h fault hfault (Cause.className_eq_nestingDepthError.1 hclass)

theorem Outcome.raises_tooDeep {α : Type} (env : Environment) :
    (tooDeep env : Outcome α).Raises "NestingDepthError" := ⟨_, rfl, rfl⟩

namespace Node

variable {limit : Nat} {tree : Node} {env : Environment}

theorem not_raises_eval_none (tree : Node) (env : Environment) :
    ¬ (tree.eval none env).Raises "NestingDepthError" :=
  (tree.hasRoom_eval env (show Room.Admits none tree from rfl)).not_raises

/-- An evaluation either stays within the limit and does as without one, or ends at the first moment
beyond the limit. -/
theorem eval_cases (limit : Nat) (tree : Node) (env : Environment) :
    ((∀ moment ∈ tree.moments 0 env, moment.stack ≤ limit) ∧
      tree.eval (some limit) env = tree.eval none env) ∨
    ∃ before moment after, tree.moments 0 env = before ++ moment :: after ∧
      (∀ earlier ∈ before, earlier.stack ≤ limit) ∧ limit < moment.stack ∧
      tree.eval (some limit) env = .tooDeep (Event.replay (Moment.events before) env) := by
  have heval : tree.eval (some limit) env =
      (tree.eval none env).cut limit env (tree.moments 0 env) :=
    tree.eval_cut (Nat.zero_le limit) env
  rw [heval]
  exact Outcome.cut_cases limit (tree.eval none env) env (tree.moments 0 env)

theorem raises_of_beyond (h : ¬ ∀ moment ∈ tree.moments 0 env, moment.stack ≤ limit) :
    (tree.eval (some limit) env).Raises "NestingDepthError" := by
  obtain ⟨hwithin, -⟩ | ⟨before, moment, after, -, -, -, heq⟩ := tree.eval_cases limit env
  · exact absurd hwithin h
  · exact heq ▸ Outcome.raises_tooDeep _

end Node

/-- What the outcome of a tree within a limit has to do with its evaluation without one. -/
structure Truncated (limit : Nat) (tree : Node) (env : Environment) (outcome : Outcome Value) :
    Prop where
  /-- Unless there is a lack of room, the limit does not show. -/
  agrees : ¬ outcome.Raises "NestingDepthError" → outcome = tree.eval none env
  /-- At a lack of room the fault has no position, and the environment is the one that had been
  reached without a limit when a node beyond the limit was first entered. -/
  ends : outcome.Raises "NestingDepthError" →
    ∃ before moment after, tree.moments 0 env = before ++ moment :: after ∧
      (∀ earlier ∈ before, earlier.stack ≤ limit) ∧ limit < moment.stack ∧
      outcome = ⟨.error ⟨.nestedTooDeeply, none⟩, Event.replay (Moment.events before) env⟩
  /-- There is room for 152 nested rule nodes. -/
  low : tree.height ≤ 152 → ¬ outcome.Raises "NestingDepthError"
  /-- There is none for 450. -/
  high : 450 ≤ tree.height → ∀ value, outcome.result ≠ .ok value

/-- A node takes at most five frames, and at least four if it has a value. -/
theorem Node.truncated_eval {limit : Nat} (hlow : 5 * 152 ≤ limit) (hhigh : limit < 4 * 450)
    (tree : Node) (env : Environment) : Truncated limit tree env (tree.eval (some limit) env) where
  agrees hraises := by
    obtain ⟨-, heq⟩ | ⟨before, moment, after, -, -, -, heq⟩ := tree.eval_cases limit env
    · exact heq
    · exact absurd (heq ▸ Outcome.raises_tooDeep _) hraises
  ends hraises := by
    obtain ⟨-, heq⟩ | hcut := tree.eval_cases limit env
    · exact absurd (heq ▸ hraises) (tree.not_raises_eval_none env)
    · exact hcut
  low hheight := by
    have hadmits : Room.Admits (some limit) tree := Room.admits_some.2 (by omega)
    exact (tree.hasRoom_eval env hadmits).not_raises
  high hheight value hvalue := by
    have hroom : 4 * tree.height ≤ limit := tree.height_le_of_eval hvalue
    omega

/-- The nesting limit does nothing but cut an evaluation off, where the one without a limit, which
never lacks room, first enters a node beyond it.  This holds of every limit that leaves room for 152
nested rule nodes of any kind and not for 450 that have values, and of the one that there is. -/
theorem evaluate_limited (tree : Node) (env : Environment) :
    ¬ (tree.eval none env).Raises "NestingDepthError" ∧
    (tree.eval none env).env = Event.replay (Moment.events (tree.moments 0 env)) env ∧
    (∀ limit, 5 * 152 ≤ limit → limit < 4 * 450 →
      Truncated limit tree env (tree.eval (some limit) env)) ∧
    Truncated nestingLimit tree env (evaluate tree env) :=
  ⟨tree.not_raises_eval_none env, tree.replay_moments 0 env,
    fun _ hlow hhigh => tree.truncated_eval hlow hhigh env,
    tree.truncated_eval (by decide) (by decide) env⟩

/-- A number behind minus signs. -/
def negations : Nat → Node
  | 0 => .token Terminal.number.label "1" none
  | n + 1 => .rule Rule.neg.label [.token Terminal.minus.label "-" none, negations n] none

theorem reach_negations (n : Nat) : (negations n).reach = n := by
  induction n with
  | zero => rfl
  | succ n ih => simp [negations, Node.reach, Node.reaches, Node.position?, ih]

theorem obstacle?_negations {n room : Nat} (h : room < Node.descriptionFrames * n) :
    (negations n).obstacle? (some room) = some .depth := by
  induction n generalizing room with
  | zero => exact absurd h (Nat.not_lt_zero room)
  | succ n ih =>
    rw [negations, Node.obstacle?]
    by_cases hself : Node.descriptionFrames ≤ room
    · have hinner : room - Node.descriptionFrames < Node.descriptionFrames * n := by
        rw [Nat.mul_succ] at h
        omega
      rw [Room.take?_some hself]
      simp [Node.firstObstacle?, Node.obstacle?, ih hinner]
    · rw [Room.take?_eq_none (Nat.not_le.1 hself)]

theorem Node.eval_rule_tooDeep {r : Rule} {children : List Node} {position : Option Position}
    {room inner : Room} {env now : Environment} (hcheck : r.check children = .ok ())
    (henter : room.enter? r.label = some inner)
    (h : evalChildren r inner env 0 children = .tooDeep now) :
    (Node.rule r.label children position).eval room env = .tooDeep now := by
  rw [eval_rule hcheck, henter]
  simp only [h]
  rfl

theorem eval_negations {n room : Nat} (h : room < Rule.neg.frames * n) (env : Environment) :
    (negations n).eval (some room) env = .tooDeep env := by
  induction n generalizing room with
  | zero => exact absurd h (Nat.not_lt_zero room)
  | succ n ih =>
    rw [negations]
    by_cases hself : Rule.neg.frames ≤ room
    · have hinner : room - Rule.neg.frames < Rule.neg.frames * n := by
        rw [Nat.mul_succ] at h
        omega
      refine Node.eval_rule_tooDeep rfl (Room.take?_some hself) ?_
      rw [labelFrames_label, Node.evalChildren, if_neg (by decide), Node.evalChildren,
        if_pos (by decide), ih hinner]
      rfl
    · have henter : Room.enter? (some room) Rule.neg.label = none :=
        Room.take?_eq_none (Nat.not_le.1 hself)
      rw [Node.eval_rule rfl, henter]
      rfl

/-- Statements that bind a name and print it. -/
def opening : List Node :=
  [.rule Rule.assign.label
      [.token Terminal.name.label "x" none, .token Terminal.string.label "\"a\"" none] none,
    .rule Rule.print.label [.token Terminal.name.label "x" none] none]

/-- What the opening leaves. -/
def opened : Environment := (({} : Environment).define "x" (.text "a")).writeLine "a"

/-- A program that binds and prints before it goes deep. -/
def deepProgram (n : Nat) : Node :=
  .rule Rule.program.label (opening ++ [negations n]) none

theorem evaluate_deepProgram_of_lt {n : Nat} (h : nestingLimit < Rule.neg.frames * n) :
    evaluate (deepProgram n) {} = .tooDeep opened := by
  have hopening : Node.evalChildren .program (some 986) {} 0 opening =
      ⟨.ok [.text "a", .text "a"], opened⟩ := rfl
  have hdeep : Node.evalChildren .program (some 986) opened (0 + opening.length) [negations n] =
      .tooDeep opened := by
    rw [Node.evalChildren, if_pos (by decide), eval_negations ((by decide : 986 < _).trans h)]
    rfl
  have hchildren : Node.evalChildren .program (some 986) {} 0 (opening ++ [negations n]) =
      .tooDeep opened := by
    rw [Node.evalChildren_append, hopening, Outcome.andThen_ok, hdeep]
    rfl
  exact Node.eval_rule_tooDeep rfl rfl hchildren

theorem evaluate_deepProgram :
    (evaluate (deepProgram 449) {}).Raises "NestingDepthError" ∧
      ∃ before moment after, (deepProgram 449).moments 0 {} = before ++ moment :: after ∧
        nestingLimit < moment.stack ∧ Event.replay (Moment.events before) {} = opened := by
  have heval : evaluate (deepProgram 449) {} = .tooDeep opened :=
    evaluate_deepProgram_of_lt (by decide)
  have hraises : (evaluate (deepProgram 449) {}).Raises "NestingDepthError" :=
    heval ▸ Outcome.raises_tooDeep opened
  obtain ⟨before, moment, after, hmoments, -, hbeyond, hcut⟩ :=
    (evaluate_limited (deepProgram 449) {}).2.2.2.ends hraises
  have henv := congrArg Outcome.env (hcut.symm.trans heval)
  exact ⟨hraises, before, moment, after, hmoments, hbeyond, henv⟩

theorem obstacle?_negations_none (n : Nat) : (negations n).obstacle? none = none := by
  induction n with
  | zero => rfl
  | succ n ih => simp [negations, Node.obstacle?, Node.firstObstacle?, ih]

/-- A sum with a tree in the place of its operator. -/
def treeAsOperator (n : Nat) : Node :=
  .rule Rule.add.label
    [.token Terminal.string.label "\"a\"" none, negations (n + 1),
      .token Terminal.string.label "\"b\"" none] none

/-- Both operands have values, and then the tree between them is described. -/
theorem moments_treeAsOperator (n : Nat) (env : Environment) :
    (treeAsOperator n).moments 0 env =
      .evaluates 5 :: ((negations (n + 1)).described 5 ++ (treeAsOperator n).searched 0) := by
  have hvalue : Rule.add.value none (treeAsOperator n).children [.text "a", .text "b"] =
      .error ((negations (n + 1)).misplaced none) := rfl
  have hmoments : (treeAsOperator n).moments 0 env = .evaluates 5 ::
      (Rule.add.moments 5 (treeAsOperator n).children [.text "a", .text "b"] ++
        (Rule.add.finish none (treeAsOperator n).children [.text "a", .text "b"] env).placing 0
          (treeAsOperator n)) := rfl
  rw [Node.misplaced, obstacle?_negations_none] at hvalue
  rw [hmoments, Rule.moments, Rule.finish, hvalue]
  rfl

theorem reach_treeAsOperator (n : Nat) : (treeAsOperator n).reach = n + 2 := by
  simp [treeAsOperator, Node.reach, Node.reaches, Node.position?, reach_negations]

theorem beyond_treeAsOperator : ∀ moment ∈ (treeAsOperator 448).moments 0 {},
    5 * 152 < moment.stack → ∃ stack, moment = .describes stack := by
  have hreach : 0 + (treeAsOperator 448).reach ≤ 450 := by rw [reach_treeAsOperator]
  rw [moments_treeAsOperator, List.forall_mem_cons, List.forall_mem_append]
  refine ⟨fun hbeyond => absurd hbeyond (by decide),
    fun moment hmoment _ => Node.alike_described _ _ moment hmoment,
    fun moment hmoment hbeyond => ?_⟩
  have hwithin := (Node.searched_within (Nat.zero_le 450) _).2 hreach moment hmoment
  omega

theorem raises_treeAsOperator : (evaluate (treeAsOperator 448) {}).Raises "NestingDepthError" := by
  refine Node.raises_of_beyond ?_
  rw [moments_treeAsOperator, List.forall_mem_cons, List.forall_mem_append,
    Node.described_within (by decide), obstacle?_negations (by decide)]
  exact fun hall => hall.2.1 rfl

/-- A sum that fails at its first operand and has no position. -/
def unplacedSum (n : Nat) : Node :=
  .rule Rule.add.label
    [.token Terminal.name.label "u" none, .token Terminal.plus.label "+" none, negations n] none

theorem moments_unplacedSum (n : Nat) :
    (unplacedSum n).moments 0 {} = .evaluates 5 :: (unplacedSum n).searched 0 := by
  rfl

theorem reach_unplacedSum (n : Nat) : (unplacedSum n).reach = n + 1 := by
  simp [unplacedSum, Node.reach, Node.reaches, Node.position?, reach_negations]

theorem beyond_unplacedSum : ∀ moment ∈ (unplacedSum 992).moments 0 {},
    5 * 152 < moment.stack → ∃ stack, moment = .searches stack := by
  rw [moments_unplacedSum, List.forall_mem_cons]
  exact ⟨fun hbeyond => absurd hbeyond (by decide),
    fun moment hmoment _ => Node.alike_searched _ _ moment hmoment⟩

theorem raises_unplacedSum : (evaluate (unplacedSum 992) {}).Raises "NestingDepthError" := by
  refine Node.raises_of_beyond ?_
  rw [moments_unplacedSum, List.forall_mem_cons, Node.searched_within (Nat.zero_le _),
    reach_unplacedSum]
  exact fun hall => absurd hall.2 (by decide)

/-- A lack of room does not show that a node beyond the limit would have been evaluated.  It may be
that one would only have been described, and that one would only have been searched for a
position. -/
theorem not_forall_evaluates_beyond :
    (¬ ∀ (tree : Node) (env : Environment), (evaluate tree env).Raises "NestingDepthError" →
      ∃ stack, 5 * 152 < stack ∧
        (.evaluates stack ∈ tree.moments 0 env ∨ .searches stack ∈ tree.moments 0 env)) ∧
    ¬ ∀ (tree : Node) (env : Environment), (evaluate tree env).Raises "NestingDepthError" →
      ∃ stack, 5 * 152 < stack ∧
        (.evaluates stack ∈ tree.moments 0 env ∨ .describes stack ∈ tree.moments 0 env) := by
  constructor
  · intro h
    obtain ⟨stack, hbeyond, hmem | hmem⟩ := h _ _ raises_treeAsOperator
    · obtain ⟨_, ⟨⟩⟩ := beyond_treeAsOperator _ hmem hbeyond
    · obtain ⟨_, ⟨⟩⟩ := beyond_treeAsOperator _ hmem hbeyond
  · intro h
    obtain ⟨stack, hbeyond, hmem | hmem⟩ := h _ _ raises_unplacedSum
    · obtain ⟨_, ⟨⟩⟩ := beyond_unplacedSum _ hmem hbeyond
    · obtain ⟨_, ⟨⟩⟩ := beyond_unplacedSum _ hmem hbeyond

end Reckon
