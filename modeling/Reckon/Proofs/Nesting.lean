import Reckon.Proofs.Depth

/-!
# Room for nesting

Evaluation in a room either runs out of it or does what it does in any larger room
(`Node.eval_upToDepth`).  So a success in some room is one in every larger room, with the same value
and the same environment (`Node.eval_of_within`).
-/

namespace Reckon

/-! ## Results -/

/-- The first result is that of a lack of room, or is the second. -/
def Cause.UpToDepth {α : Type} (x y : Except Cause α) : Prop :=
  x = .error .nestedTooDeeply ∨ x = y

/-- A node that can be described in a room can be in a larger one. -/
theorem Room.Within.inRoom {r s : Room} (h : r.Within s) (cause : Cause) :
    cause.inRoom r = .nestedTooDeeply ∨ cause.inRoom r = cause.inRoom s := by
  unfold Cause.inRoom
  cases cause.described? with
  | none => exact .inr rfl
  | some found =>
    obtain hdepth | heq := found.obstacle?_upToDepth h
    · exact .inl (if_pos hdepth)
    · right
      simp only [Option.bind_some, heq]

theorem Room.Within.locate {r s : Room} (h : r.Within s) (fault : Fault) (node : Node) :
    fault.locate r node = ⟨.nestedTooDeeply, none⟩ ∨ fault.locate r node = fault.locate s node := by
  unfold Fault.locate
  split
  · exact .inr rfl
  · by_cases hr : r.holds node.reach
    · rw [if_pos hr, if_pos (h.holds hr)]
      exact .inr rfl
    · exact .inl (if_neg hr)

/-! ## Outcomes -/

namespace Outcome

variable {α β : Type} {x y : Outcome α}

/-- A failure for lack of room, which has no place. -/
def IsTooDeep (outcome : Outcome α) : Prop :=
  outcome.result = .error ⟨.nestedTooDeeply, none⟩

/-- The first outcome is that of a lack of room, or is the second. -/
def UpToDepth (x y : Outcome α) : Prop := x.IsTooDeep ∨ x = y

namespace UpToDepth

theorem andThen {f g : α → Environment → Outcome β} (h : x.UpToDepth y)
    (hnext : ∀ a env, (f a env).UpToDepth (g a env)) :
    (x.andThen f).UpToDepth (y.andThen g) := by
  obtain ⟨result, env⟩ := x
  obtain h | rfl := h
  · cases h
    exact .inl rfl
  · cases result with
    | ok a => exact hnext a env
    | error fault => exact .inr rfl

theorem locate {r s : Room} (h : x.UpToDepth y) (hroom : r.Within s) (node : Node) :
    (x.locate r node).UpToDepth (y.locate s node) := by
  obtain ⟨result, env⟩ := x
  obtain h | rfl := h
  · cases h
    exact .inl rfl
  · cases result with
    | ok a => exact .inr rfl
    | error fault =>
      simp only [Outcome.locate]
      obtain hdeep | heq := hroom.locate fault node
      · exact .inl (congrArg Except.error hdeep)
      · rw [heq]
        exact .inr rfl

theorem eq_of_ok (h : x.UpToDepth y) {a : α} {env : Environment} (hx : x = ⟨.ok a, env⟩) :
    y = ⟨.ok a, env⟩ := by
  obtain h | rfl := h
  · subst hx
    cases h
  · exact hx

end UpToDepth

end Outcome

/-! ## Evaluation -/

namespace Rule

variable {r s : Room}

theorem value_upToDepth (h : r.Within s) (rule : Rule) (children : List Node)
    (values : List Value) :
    Cause.UpToDepth (rule.value r children values) (rule.value s children values) := by
  rw [value_inRoom rule r, value_inRoom rule s]
  cases rule.value none children values with
  | ok value => exact .inr rfl
  | error cause => exact (h.inRoom cause).imp (congrArg Except.error) (congrArg Except.error)

theorem finish_upToDepth (h : r.Within s) (rule : Rule) (children : List Node)
    (values : List Value) (env : Environment) :
    (rule.finish r children values env).UpToDepth (rule.finish s children values env) := by
  unfold finish
  obtain hdeep | heq := rule.value_upToDepth h children values
  · rw [hdeep]
    exact .inl rfl
  · rw [heq]
    exact .inr rfl

end Rule

namespace Node

mutual

/-- A tree evaluated in a room either runs out of it or does as in a larger one. -/
theorem eval_upToDepth {r s : Room} (h : r.Within s) (env : Environment) : (node : Node) →
    (node.eval r env).UpToDepth (node.eval s env)
  | .foreign _ => by
    rw [eval, eval]
    exact .inr rfl
  | .token .. => by
    rw [eval, eval]
    exact Outcome.UpToDepth.locate (.inr rfl) h _
  | .rule label children position => by
    rw [eval, eval]
    cases hr : r.enter? label with
    | none => exact .inl rfl
    | some inner =>
      obtain ⟨wider, hs, hinner⟩ := h.take? hr
      rw [Room.enter?, hs]
      refine Outcome.UpToDepth.locate ?_ h _
      cases Rule.ofLabel? label with
      | none => exact .inr rfl
      | some rule =>
        have hcheck : Outcome.UpToDepth (.ofExcept env (rule.check children))
            (.ofExcept env (rule.check children)) := .inr rfl
        refine hcheck.andThen fun _ env => ?_
        refine (evalChildren_upToDepth hinner rule env 0 children).andThen fun values env => ?_
        exact rule.finish_upToDepth hinner children values env

theorem evalChildren_upToDepth {r s : Room} (h : r.Within s) (rule : Rule) (env : Environment)
    (index : Nat) : (children : List Node) →
    (evalChildren rule r env index children).UpToDepth (evalChildren rule s env index children)
  | [] => by
    rw [evalChildren, evalChildren]
    exact .inr rfl
  | node :: rest => by
    rw [evalChildren, evalChildren]
    split
    · refine (eval_upToDepth h env node).andThen fun value env => ?_
      exact (evalChildren_upToDepth h rule env (index + 1) rest).andThen fun values env => .inr rfl
    · exact evalChildren_upToDepth h rule env (index + 1) rest

end

theorem eval_of_within {r s : Room} (h : r.Within s) {node : Node} {env after : Environment}
    {value : Value} (hr : node.eval r env = ⟨.ok value, after⟩) :
    node.eval s env = ⟨.ok value, after⟩ :=
  (eval_upToDepth h env node).eq_of_ok hr

end Node

end Reckon
