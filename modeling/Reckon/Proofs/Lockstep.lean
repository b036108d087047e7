import Mathlib.Data.List.Forall2
import Mathlib.Data.Option.Defs
import Reckon.Evaluation.Basic
import Reckon.Proofs.Causes

/-!
# Two evaluations side by side

The same tree evaluated in two environments.  A relation of values that the environments, the
literals and the operators keep up (`Lockstep`) is kept up by every evaluation: the two give related
values, or the same fault, and leave related environments (`Lockstep.eval`).  Only a fault whose
cause is excused may come up in one of them alone, and then they are no longer compared.
-/

namespace Reckon

/-! ## Results side by side -/

/-- Both have related results or the same fault, or one of them has an excused fault. -/
inductive Cause.Matches {α : Type} (excused : Cause → Prop) (same : α → α → Prop) :
    Except Cause α → Except Cause α → Prop
  | ok {a b : α} (h : same a b) : Matches excused same (.ok a) (.ok b)
  | error (cause : Cause) : Matches excused same (.error cause) (.error cause)
  | left {cause : Cause} (h : excused cause) (result : Except Cause α) :
      Matches excused same (.error cause) result
  | right {cause : Cause} (h : excused cause) (result : Except Cause α) :
      Matches excused same result (.error cause)

namespace Cause.Matches

variable {α β : Type} {excused : Cause → Prop} {same : α → α → Prop} {alike : β → β → Prop}

theorem refl (h : ∀ a, same a a) (result : Except Cause α) :
    Matches excused same result result := by
  cases result with
  | ok a => exact .ok (h a)
  | error cause => exact .error cause

theorem bind {x y : Except Cause α} {f g : α → Except Cause β} (h : Matches excused same x y)
    (hnext : ∀ a b, same a b → Matches excused alike (f a) (g b)) :
    Matches excused alike (x >>= f) (y >>= g) := by
  cases h with
  | ok h => exact hnext _ _ h
  | error cause => exact .error cause
  | left h => exact .left h _
  | right h => exact .right h _

end Cause.Matches

/-- Both have related results and environments or the same fault, or one of them has an excused
fault. -/
inductive Outcome.Matches {α : Type} (excused : Cause → Prop)
    (near : Environment → Environment → Prop) (same : α → α → Prop) : Outcome α → Outcome α → Prop
  | ok {a b : α} {env env' : Environment} (h : same a b) (henv : near env env') :
      Matches excused near same ⟨.ok a, env⟩ ⟨.ok b, env'⟩
  | error (fault : Fault) {env env' : Environment} (henv : near env env') :
      Matches excused near same ⟨.error fault, env⟩ ⟨.error fault, env'⟩
  | left {fault : Fault} (h : excused fault.cause) (env : Environment) (outcome : Outcome α) :
      Matches excused near same ⟨.error fault, env⟩ outcome
  | right {fault : Fault} (h : excused fault.cause) (env : Environment) (outcome : Outcome α) :
      Matches excused near same outcome ⟨.error fault, env⟩

namespace Outcome.Matches

variable {α β : Type} {excused : Cause → Prop} {near : Environment → Environment → Prop}
  {same : α → α → Prop} {alike : β → β → Prop} {env env' : Environment}

theorem ofExcept {x y : Except Cause α} (h : Cause.Matches excused same x y)
    (henv : near env env') :
    Matches excused near same (Outcome.ofExcept env x) (Outcome.ofExcept env' y) := by
  cases h with
  | ok h => exact .ok h henv
  | error cause => exact .error _ henv
  | left h => exact .left h _ _
  | right h => exact .right h _ _

theorem andThen {x y : Outcome α} {f g : α → Environment → Outcome β}
    (h : Matches excused near same x y)
    (hnext : ∀ {a b env env'}, same a b → near env env' →
      Matches excused near alike (f a env) (g b env')) :
    Matches excused near alike (x.andThen f) (y.andThen g) := by
  cases h with
  | ok h henv => exact hnext h henv
  | error fault henv => exact .error fault henv
  | left h => exact .left h _ _
  | right h => exact .right h _ _

theorem locate {x y : Outcome α} (h : Matches excused near same x y)
    (hdeep : ∀ cause, excused cause → excused .nestedTooDeeply) (room : Room) (node : Node) :
    Matches excused near same (x.locate room node) (y.locate room node) := by
  have hplaced {fault : Fault} (hcause : excused fault.cause) :
      excused (fault.locate room node).cause := by
    obtain heq | heq := fault.cause_locate room node
    · rwa [heq]
    · rw [heq]
      exact hdeep _ hcause
  cases h with
  | ok h henv => exact .ok h henv
  | error fault henv => exact .error _ henv
  | left h => exact .left (hplaced h) _ _
  | right h => exact .right (hplaced h) _ _

end Outcome.Matches

/-! ## Steps side by side -/

/-- What steps have to keep up of a relation of values and one of environments. -/
structure Lockstep (excused : Cause → Prop) (near : Environment → Environment → Prop)
    (same : Value → Value → Prop) : Prop where
  deep (cause : Cause) : excused cause → excused .nestedTooDeeply
  number {x : Binary64} : x.isFinite → same (.number x) (.number x)
  text (s : String) : same (.text s) (.text s)
  nil : same .nil .nil
  get? {env env' : Environment} (name : String) : near env env' →
    Option.Rel same (env.bindings.get? name) (env'.bindings.get? name)
  define {env env' : Environment} {a b : Value} (name : String) : near env env' → same a b →
    near (env.define name a) (env'.define name b)
  writeLine {env env' : Environment} {a b : Value} : near env env' → same a b →
    near (env.writeLine a.display) (env'.writeLine b.display)
  shown {a b : Value} : same a b → Cause.Matches excused same a.shown b.shown
  negate {a b : Value} : same a b → Cause.Matches excused same a.negate b.negate
  applyText {a b c d : Value} (symbol : String) : same a b → same c d →
    Cause.Matches excused same (Operator.applyText symbol a c) (Operator.applyText symbol b d)
  compare {a b c d : Value} (symbol : String) : same a b → same c d →
    Cause.Matches excused (fun p q => same (.ofBool p) (.ofBool q)) (Value.compare symbol a c)
      (Value.compare symbol b d)

theorem Rule.applyAll_cons (first second : Value) (symbol : String)
    (rest : List (String × Value)) :
    applyAll first ((symbol, second) :: rest) =
      Operator.applyText symbol first second >>= fun value => applyAll value rest := by
  rw [applyAll]
  cases Operator.applyText symbol first second <;> rfl

namespace Lockstep

variable {excused : Cause → Prop} {near : Environment → Environment → Prop}
  {same : Value → Value → Prop} {env env' : Environment}

theorem tokenValue (h : Lockstep excused near same) (henv : near env env') (kind text : String) :
    Cause.Matches excused same (tokenValue env.bindings kind text)
      (tokenValue env'.bindings kind text) := by
  unfold Reckon.tokenValue
  split
  · unfold Literal.number
    split
    · exact .error _
    · split
      · exact .ok (h.number ‹_›)
      · exact .error _
  split
  · exact .ok (h.text _)
  split
  · have hget := h.get? text henv
    generalize env.bindings.get? text = found at hget ⊢
    generalize env'.bindings.get? text = found' at hget ⊢
    cases hget with
    | none => exact .error _
    | some hvalue => exact .ok hvalue
  · exact .error _

theorem applyAll (h : Lockstep excused near same) {rest rest' : List Value}
    (hrest : List.Forall₂ same rest rest') (symbols : List String) {a b : Value}
    (hab : same a b) :
    Cause.Matches excused same (Rule.applyAll a (symbols.zip rest))
      (Rule.applyAll b (symbols.zip rest')) := by
  induction hrest generalizing symbols a b with
  | nil =>
    rw [List.zip_nil_right]
    exact .ok hab
  | cons hhead htail ih =>
    cases symbols with
    | nil => exact .ok hab
    | cons symbol symbols =>
      rw [List.zip_cons_cons, List.zip_cons_cons, Rule.applyAll_cons, Rule.applyAll_cons]
      exact (h.applyText symbol hab hhead).bind fun _ _ hvalue => ih symbols hvalue

theorem applyInfix (h : Lockstep excused near same) (symbols : List String)
    {values values' : List Value} (hvalues : List.Forall₂ same values values') :
    Cause.Matches excused same (Rule.applyInfix symbols values)
      (Rule.applyInfix symbols values') := by
  cases hvalues with
  | nil => exact .error _
  | cons hhead htail =>
    rw [Rule.applyInfix, Rule.applyInfix, ← htail.length_eq]
    split
    · exact h.applyAll htail symbols hhead
    · exact .error _

theorem getLast? (h : Lockstep excused near same) {values values' : List Value}
    (hvalues : List.Forall₂ same values values') :
    same (values.getLast?.getD .nil) (values'.getLast?.getD .nil) := by
  induction hvalues with
  | nil => exact h.nil
  | cons hhead htail ih =>
    cases htail with
    | nil => exact hhead
    | cons hnext hrest =>
      rw [List.getLast?_cons_cons, List.getLast?_cons_cons]
      exact ih

theorem compareValues (h : Lockstep excused near same) (room : Room) (children : List Node)
    {values values' : List Value} (hvalues : List.Forall₂ same values values') :
    Cause.Matches excused same (Rule.value .compare room children values)
      (Rule.value .compare room children values') := by
  match children with
  | [_, operator, _] =>
    rcases hvalues with _ | ⟨ha, _ | ⟨hb, _ | _⟩⟩
    · exact .error _
    · exact .error _
    · refine (Cause.Matches.refl (fun _ => rfl) _).bind fun symbol _ hs => hs ▸ ?_
      exact (h.compare symbol ha hb).bind fun p q hpq => .ok hpq
    · exact .error _
  | [] | [_] | [_, _] | _ :: _ :: _ :: _ :: _ => exact .error _

theorem negValue (h : Lockstep excused near same) (room : Room) (children : List Node)
    {values values' : List Value} (hvalues : List.Forall₂ same values values') :
    Cause.Matches excused same (Rule.value .neg room children values)
      (Rule.value .neg room children values') := by
  match children with
  | [operator, _] =>
    rcases hvalues with _ | ⟨ha, _ | _⟩
    · exact .error _
    · rw [Rule.value, Rule.value]
      split
      · exact h.negate ha
      · exact (Cause.Matches.refl (fun _ => rfl) _).bind fun symbol _ hs => hs ▸ .error _
    · exact .error _
  | [] | [_] | _ :: _ :: _ :: _ => exact .error _

theorem value (h : Lockstep excused near same) (rule : Rule) (room : Room) (children : List Node)
    {values values' : List Value} (hvalues : List.Forall₂ same values values') :
    Cause.Matches excused same (rule.value room children values)
      (rule.value room children values') := by
  cases rule with
  | program => exact .ok (h.getLast? hvalues)
  | assign =>
    cases hvalues with
    | nil => exact .error _
    | cons hvalue hrest =>
      cases hrest with
      | nil => exact .ok hvalue
      | cons => exact .error _
  | print =>
    cases hvalues with
    | nil => exact .error _
    | cons hvalue hrest =>
      cases hrest with
      | nil => exact h.shown hvalue
      | cons => exact .error _
  | add | mul | pow =>
    refine (Cause.Matches.refl (fun _ => rfl) _).bind fun symbols _ hs => hs ▸ ?_
    exact h.applyInfix symbols hvalues
  | compare => exact h.compareValues room children hvalues
  | neg => exact h.negValue room children hvalues

theorem effect (h : Lockstep excused near same) (rule : Rule) (children : List Node) {a b : Value}
    (hab : same a b) (henv : near env env') :
    near (rule.effect children a env) (rule.effect children b env') := by
  unfold Rule.effect
  split
  · exact h.define _ henv hab
  · exact h.writeLine henv hab
  · exact henv

theorem finish (h : Lockstep excused near same) (rule : Rule) (room : Room) (children : List Node)
    {values values' : List Value} (hvalues : List.Forall₂ same values values')
    (henv : near env env') :
    Outcome.Matches excused near same (rule.finish room children values env)
      (rule.finish room children values' env') := by
  have hvalue := h.value rule room children hvalues
  unfold Rule.finish
  generalize rule.value room children values = x at hvalue ⊢
  generalize rule.value room children values' = y at hvalue ⊢
  cases hvalue with
  | ok hab => exact .ok hab (h.effect rule children hab henv)
  | error cause => exact .error _ henv
  | left hcause => exact .left hcause _ _
  | right hcause => exact .right hcause _ _

/-! ## Runs side by side -/

mutual

/-- Evaluations in related environments stay related. -/
theorem eval (h : Lockstep excused near same) (room : Room) {env env' : Environment}
    (henv : near env env') : (node : Node) →
    Outcome.Matches excused near same (node.eval room env) (node.eval room env')
  | .foreign _ => .error _ henv
  | .token kind text position => by
    rw [Node.eval, Node.eval]
    exact (Outcome.Matches.ofExcept (h.tokenValue henv kind text) henv).locate h.deep _ _
  | .rule label children position => by
    rw [Node.eval, Node.eval]
    cases room.enter? label with
    | none => exact .error _ henv
    | some inner =>
      refine Outcome.Matches.locate ?_ h.deep _ _
      cases Rule.ofLabel? label with
      | none => exact .error _ henv
      | some r =>
        have hcheck : Outcome.Matches excused near Eq (.ofExcept env (r.check children))
            (.ofExcept env' (r.check children)) := .ofExcept (.refl (fun _ => rfl) _) henv
        apply hcheck.andThen
        intro _ _ env env' _ henv
        apply (evalChildren h r inner henv 0 children).andThen
        intro values values' env env' hvalues henv
        exact h.finish r inner children hvalues henv

theorem evalChildren (h : Lockstep excused near same) (r : Rule) (room : Room)
    {env env' : Environment} (henv : near env env') (index : Nat) : (children : List Node) →
    Outcome.Matches excused near (List.Forall₂ same) (Node.evalChildren r room env index children)
      (Node.evalChildren r room env' index children)
  | [] => .ok .nil henv
  | node :: rest => by
    rw [Node.evalChildren, Node.evalChildren]
    split
    · apply (eval h room henv node).andThen
      intro value value' env env' hvalue henv
      apply (evalChildren h r room henv (index + 1) rest).andThen
      intro values values' env env' hvalues henv
      exact .ok (.cons hvalue hvalues) henv
    · exact evalChildren h r room henv (index + 1) rest

end

end Lockstep

end Reckon
