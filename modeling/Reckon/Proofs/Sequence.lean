import Reckon.Proofs.Safety
import Reckon.Tree.Outline

/-!
# Steps in a row

Statements are evaluated one after another up to the first that fails, and so are programs that
share an environment.  `Outcome.inOrder` is such a row of steps.  A row that fails has exactly one
failing step (`Outcome.inOrder_eq_error`, `Outcome.FailsAt.unique`), and a program whose statements
have places is the row of its statements (`evaluate_program`).
-/

namespace Reckon

namespace Outcome

variable {α β γ : Type}

/-- The outcome with its value changed. -/
def map (f : α → β) (outcome : Outcome α) : Outcome β :=
  outcome.andThen fun a env => ⟨.ok (f a), env⟩

@[simp] theorem andThen_ok (a : α) (env : Environment) (next : α → Environment → Outcome β) :
    (⟨.ok a, env⟩ : Outcome α).andThen next = next a env := rfl

@[simp] theorem andThen_error (fault : Fault) (env : Environment)
    (next : α → Environment → Outcome β) :
    (⟨.error fault, env⟩ : Outcome α).andThen next = ⟨.error fault, env⟩ := rfl

@[simp] theorem map_ok (f : α → β) (a : α) (env : Environment) :
    map f ⟨.ok a, env⟩ = ⟨.ok (f a), env⟩ := rfl

@[simp] theorem map_error (f : α → β) (fault : Fault) (env : Environment) :
    map f ⟨.error fault, env⟩ = ⟨.error fault, env⟩ := rfl

@[simp] theorem env_map (f : α → β) (outcome : Outcome α) : (outcome.map f).env = outcome.env := by
  obtain ⟨result, env⟩ := outcome
  cases result <;> rfl

theorem eq_error_of_map {f : α → β} {outcome : Outcome α} {fault : Fault}
    (h : (outcome.map f).result = .error fault) : outcome = ⟨.error fault, outcome.env⟩ := by
  obtain ⟨result, env⟩ := outcome
  cases result with
  | ok a => cases h
  | error found =>
    cases h
    rfl

theorem map_congr {f g : α → β} {outcome : Outcome α}
    (h : ∀ a env, outcome = ⟨.ok a, env⟩ → f a = g a) : outcome.map f = outcome.map g := by
  obtain ⟨result, env⟩ := outcome
  cases result with
  | ok a => rw [map_ok, map_ok, h a env rfl]
  | error fault => rfl

theorem map_map (f : α → β) (g : β → γ) (outcome : Outcome α) :
    (outcome.map f).map g = outcome.map fun a => g (f a) := by
  obtain ⟨result, env⟩ := outcome
  cases result <;> rfl

theorem andThen_assoc (outcome : Outcome α) (next : α → Environment → Outcome β)
    (last : β → Environment → Outcome γ) :
    (outcome.andThen next).andThen last =
      outcome.andThen fun a env => (next a env).andThen last := by
  obtain ⟨result, env⟩ := outcome
  cases result <;> rfl

theorem map_andThen (outcome : Outcome α) (next : α → Environment → Outcome β) (f : β → γ) :
    (outcome.andThen next).map f = outcome.andThen fun a env => (next a env).map f :=
  andThen_assoc outcome next _

theorem andThen_map (outcome : Outcome α) (f : α → β) (next : β → Environment → Outcome γ) :
    (outcome.map f).andThen next = outcome.andThen fun a env => next (f a) env :=
  andThen_assoc outcome _ next

theorem locate_andThen (room : Room) (node : Node) (outcome : Outcome α)
    (next : α → Environment → Outcome β) :
    (outcome.andThen next).locate room node =
      (outcome.locate room node).andThen fun a env => (next a env).locate room node := by
  obtain ⟨result, env⟩ := outcome
  cases result <;> rfl

/-! ## Rows of steps -/

/-- Steps taken one after another, up to the first that fails. -/
def inOrder (step : α → Environment → Outcome β) : List α → Environment → Outcome (List β)
  | [], env => ⟨.ok [], env⟩
  | a :: rest, env => (step a env).andThen fun b env => (inOrder step rest env).map (b :: ·)

variable {step : α → Environment → Outcome β}

theorem inOrder_congr {other : α → Environment → Outcome β} {xs : List α}
    (h : ∀ a ∈ xs, ∀ env, step a env = other a env) (env : Environment) :
    inOrder step xs env = inOrder other xs env := by
  induction xs generalizing env with
  | nil => rfl
  | cons a rest ih =>
    rw [List.forall_mem_cons] at h
    rw [inOrder, inOrder, h.1]
    congr 1
    funext b env
    rw [ih h.2]

theorem inOrder_append (xs ys : List α) (env : Environment) :
    inOrder step (xs ++ ys) env =
      (inOrder step xs env).andThen fun bs env => (inOrder step ys env).map (bs ++ ·) := by
  induction xs generalizing env with
  | nil =>
    show inOrder step ys env = (inOrder step ys env).map _
    rcases inOrder step ys env with ⟨_ | bs, after⟩ <;> rfl
  | cons a rest ih =>
    rw [List.cons_append, inOrder, inOrder, andThen_assoc]
    congr 1
    funext b env
    rw [ih, map_andThen, andThen_map]
    congr 1
    funext bs env
    rcases inOrder step ys env with ⟨_ | cs, after⟩ <;> rfl

theorem inOrder_flatMap {δ : Type} (f : δ → List α) (xs : List δ) (env : Environment) :
    inOrder step (xs.flatMap f) env =
      (inOrder (fun x env => inOrder step (f x) env) xs env).map List.flatten := by
  induction xs generalizing env with
  | nil => rfl
  | cons x xs ih =>
    rw [List.flatMap_cons, inOrder_append, inOrder, map_andThen]
    congr 1
    funext bs env
    rw [ih]
    rcases inOrder (fun x env => inOrder step (f x) env) xs env with ⟨_ | css, after⟩ <;> rfl

theorem inOrder_map (f : β → γ) (xs : List α) (env : Environment) :
    inOrder (fun a env => (step a env).map f) xs env = (inOrder step xs env).map (List.map f) := by
  induction xs generalizing env with
  | nil => rfl
  | cons a rest ih =>
    rw [inOrder, inOrder, andThen_map, map_andThen]
    congr 1
    funext b env
    rw [ih]
    rcases inOrder step rest env with ⟨_ | bs, after⟩ <;> rfl

/-- Each value of a row comes from the step in its place. -/
theorem forall₂_of_inOrder {xs : List α} {bs : List β} {env after : Environment}
    (h : inOrder step xs env = ⟨.ok bs, after⟩) :
    List.Forall₂ (fun a b => ∃ env after, step a env = ⟨.ok b, after⟩) xs bs := by
  induction xs generalizing env bs with
  | nil =>
    cases h
    exact .nil
  | cons a rest ih =>
    rw [inOrder] at h
    rcases hstep : step a env with ⟨fault | b, next⟩
    · rw [hstep] at h
      cases h
    · rw [hstep, andThen_ok] at h
      rcases hrest : inOrder step rest next with ⟨fault | cs, last⟩
      · rw [hrest] at h
        cases h
      · rw [hrest] at h
        cases h
        exact .cons ⟨env, next, hstep⟩ (ih hrest)

theorem inOrder_locate {room : Room} {node : Node} {xs : List α}
    (h : ∀ a ∈ xs, ∀ env, (step a env).locate room node = step a env) (env : Environment) :
    (inOrder step xs env).locate room node = inOrder step xs env := by
  induction xs generalizing env with
  | nil => rfl
  | cons a rest ih =>
    rw [List.forall_mem_cons] at h
    rw [inOrder, locate_andThen, h.1]
    congr 1
    funext b env
    rw [map, locate_andThen, ih h.2]
    rfl

/-- The step at an index fails, behind steps that all succeed and leave the given environment. -/
def FailsAt (step : α → Environment → Outcome β) (xs : List α) (env : Environment) (index : Nat)
    (before : Environment) (fault : Fault) (after : Environment) : Prop :=
  ∃ bs a, inOrder step (xs.take index) env = ⟨.ok bs, before⟩ ∧ xs[index]? = some a ∧
    step a before = ⟨.error fault, after⟩

theorem inOrder_eq_error {xs : List α} {env after : Environment} {fault : Fault}
    (h : inOrder step xs env = ⟨.error fault, after⟩) :
    ∃ index before, FailsAt step xs env index before fault after := by
  induction xs generalizing env with
  | nil => cases h
  | cons a rest ih =>
    rw [inOrder] at h
    cases hstep : step a env with
    | mk result next =>
      cases result with
      | error found =>
        rw [hstep] at h
        cases h
        exact ⟨0, env, [], a, rfl, rfl, hstep⟩
      | ok b =>
        rw [hstep, andThen_ok] at h
        have hrest : inOrder step rest next = ⟨.error fault, after⟩ := by
          rcases hr : inOrder step rest next with ⟨_ | bs, last⟩
          · rw [hr] at h
            exact h
          · rw [hr] at h
            cases h
        obtain ⟨index, before, bs, failing, htake, hget, hfail⟩ := ih hrest
        refine ⟨index + 1, before, b :: bs, failing, ?_, hget, hfail⟩
        rw [List.take_succ_cons, inOrder, hstep, andThen_ok, htake, map_ok]

/-- Steps behind a failing one are not taken, so that only one can fail. -/
theorem FailsAt.le {xs : List α} {env before before' after after' : Environment} {i j : Nat}
    {fault fault' : Fault} (h : FailsAt step xs env i before fault after)
    (h' : FailsAt step xs env j before' fault' after') : j ≤ i := by
  obtain ⟨bs, a, htake, hget, hfail⟩ := h
  obtain ⟨cs, -, htake', -⟩ := h'
  by_contra hlt
  obtain ⟨more, hmore⟩ : xs.take (i + 1) <+: xs.take j := List.take_prefix_take_left (by omega)
  rw [← hmore, List.take_add_one, hget, List.append_assoc, inOrder_append, htake, andThen_ok,
    Option.toList_some, List.singleton_append, inOrder, hfail] at htake'
  cases htake'

theorem FailsAt.unique {xs : List α} {env before before' after after' : Environment} {i j : Nat}
    {fault fault' : Fault} (h : FailsAt step xs env i before fault after)
    (h' : FailsAt step xs env j before' fault' after') : i = j :=
  Nat.le_antisymm (h'.le h) (h.le h')

end Outcome

/-! ## Programs -/

/-- A fault that was placed at a node which has a position is not placed again. -/
theorem Fault.locate_locate (fault : Fault) {node : Node} (h : node.position?.isSome)
    (room around : Room) (other : Node) :
    (fault.locate room node).locate around other = fault.locate room node := by
  have hplaced : (fault.locate room node).cause.isPlaceless ||
      (fault.locate room node).position.isSome := by
    unfold locate
    split
    · assumption
    split
    · simp [h]
    · rfl
  exact if_pos hplaced

namespace Node

/-- The fault of a node that has a place is not placed again. -/
theorem locate_eval {node : Node} (h : node.position?.isSome) (around : Room) (other : Node)
    (room : Room) (env : Environment) :
    (node.eval room env).locate around other = node.eval room env := by
  have hlocate (outcome : Outcome Value) :
      (outcome.locate room node).locate around other = outcome.locate room node := by
    obtain ⟨result, env⟩ := outcome
    cases result with
    | ok value => rfl
    | error fault =>
      simp only [Outcome.locate]
      rw [Fault.locate_locate fault h]
  cases node with
  | foreign value => cases h
  | token kind text position =>
    rw [eval]
    exact hlocate _
  | rule label children position =>
    rw [eval]
    cases room.enter? label with
    | none => rfl
    | some inner => exact hlocate _

theorem IsStatement.isSome_position? {node : Node} {texts : Terminal → String → Prop}
    (h : node.IsStatement texts IsMarked) : node.position?.isSome := by
  have hmarked {label : String} {children : List Node} {position : Option Position}
      (hp : IsMarked position) : (Node.rule label children position).position?.isSome := by
    obtain ⟨mark, rfl⟩ := hp
    rfl
  cases h with
  | print _ hp => exact hmarked hp
  | value h =>
    cases h with
    | assign _ _ _ hp => exact hmarked hp
    | expr h =>
      cases h with
      | token _ _ hp =>
        obtain ⟨mark, rfl⟩ := hp
        rfl
      | binary _ _ _ _ _ hp => exact hmarked hp
      | neg _ _ _ hp => exact hmarked hp

theorem evalChildren_program (room : Room) (env : Environment) (index : Nat)
    (statements : List Node) :
    evalChildren .program room env index statements =
      Outcome.inOrder (fun statement env => statement.eval room env) statements env := by
  induction statements generalizing env index with
  | nil => rw [evalChildren]; rfl
  | cons statement rest ih =>
    have hevaluates : Rule.program.evaluates index := rfl
    rw [evalChildren, if_pos hevaluates, Outcome.inOrder]
    congr 1
    funext value env
    rw [ih]
    rfl

end Node

/-- Evaluate a statement of a program. -/
def evaluateStatement (statement : Node) (env : Environment) : Outcome Value :=
  statement.eval (some (nestingLimit - Rule.program.frames)) env

theorem enter?_program : Room.enter? (some nestingLimit) Rule.program.label =
    some (some (nestingLimit - Rule.program.frames)) := by
  rw [Room.enter?, labelFrames_label, Room.take?_some (by decide)]

/-- A program is evaluated statement by statement, and its value is that of the last one. -/
theorem evaluate_program {statements : List Node}
    (h : ∀ statement ∈ statements, statement.position?.isSome) (position : Option Position)
    (env : Environment) :
    evaluate (.rule Rule.program.label statements position) env =
      (Outcome.inOrder evaluateStatement statements env).map
        fun values => values.getLast?.getD .nil := by
  have hplaced : ∀ statement ∈ statements, ∀ env,
      (evaluateStatement statement env).locate (some nestingLimit)
          (.rule Rule.program.label statements position) =
        evaluateStatement statement env :=
    fun statement hs env => Node.locate_eval (h statement hs) _ _ _ env
  have hcheck : Rule.program.check statements = .ok () := rfl
  rw [evaluate, Node.eval_rule hcheck, enter?_program]
  simp only [Node.evalChildren_program, Outcome.locate_andThen]
  rw [← Outcome.inOrder_locate hplaced]
  rfl

namespace Node.IsProgram

variable {tree : Node} {texts : Terminal → String → Prop} {places : Option Position → Prop}

theorem isStatement_of_mem (h : tree.IsProgram texts places) :
    ∀ statement ∈ tree.children, statement.IsStatement texts places := by
  obtain ⟨hstatements⟩ := h
  exact hstatements

theorem evaluate_eq (h : tree.IsProgram texts IsMarked) (env : Environment) :
    evaluate tree env = (Outcome.inOrder evaluateStatement tree.children env).map
      fun values => values.getLast?.getD .nil := by
  have hplaces : ∀ statement ∈ tree.children, statement.position?.isSome :=
    fun statement hs => (h.isStatement_of_mem statement hs).isSome_position?
  cases h
  exact evaluate_program hplaces _ env

end Node.IsProgram

end Reckon
