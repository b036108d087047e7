import Reckon.Proofs.Causes
import Reckon.Proofs.Finiteness
import Reckon.Proofs.Lockstep
import Reckon.Proofs.Safety

/-!
# Heights and room

How high a tree may be for a room.  No level of a tree takes more than five frames, so a tree with
five for each of its levels never runs out of room (`Node.hasRoom_eval`).  A tree that is evaluated
with success has had four for each of them (`Node.height_le_of_eval`): all of its rule nodes have
been evaluated, since a child that is passed over has to be a token (`Rule.mem_evaluated`).

A room shows in the own step of a rule only where a node is to be described for which it is too
small: `Rule.value_inRoom`.
-/

namespace Reckon

/-! ## Rooms -/

/-- Whether a room is no larger than another. -/
def Room.Within : Room → Room → Prop
  | _, none => True
  | none, some _ => False
  | some m, some n => m ≤ n

theorem Room.within_none (r : Room) : r.Within none := by
  cases r <;> trivial

namespace Room.Within

variable {r s : Room} {frames : Nat}

theorem holds (h : r.Within s) (hr : r.holds frames) : s.holds frames := by
  match r, s, h with
  | _, none, _ => rfl
  | some m, some n, h => exact holds_some.2 ((holds_some.1 hr).trans h)

theorem take? (h : r.Within s) {inner : Room} (hr : r.take? frames = some inner) :
    ∃ wider, s.take? frames = some wider ∧ inner.Within wider := by
  obtain ⟨hholds, hinner⟩ := Option.ite_none_right_eq_some.1 hr
  obtain rfl := Option.some.inj hinner
  refine ⟨_, if_pos (h.holds hholds), ?_⟩
  match r, s, h with
  | _, none, _ => trivial
  | some m, some n, h => exact Nat.sub_le_sub_right h frames

/-- The room that is left is no larger than the one before. -/
theorem of_take? {inner : Room} (hr : r.take? frames = some inner) : inner.Within r := by
  obtain ⟨-, hinner⟩ := Option.ite_none_right_eq_some.1 hr
  obtain rfl := Option.some.inj hinner
  match r with
  | none => trivial
  | some m => exact Nat.sub_le m frames

end Room.Within

theorem Rule.frames_le (r : Rule) : r.frames ≤ 5 := by
  cases r <;> decide

theorem Rule.le_frames (r : Rule) : 4 ≤ r.frames := by
  cases r <;> decide

theorem labelFrames_le (label : String) : labelFrames label ≤ 5 := by
  unfold labelFrames
  cases Rule.ofLabel? label with
  | none => decide
  | some r => exact r.frames_le

/-! ## Heights -/

namespace Node

theorem heights_le_iff {nodes : List Node} {n : Nat} :
    heights nodes ≤ n ↔ ∀ node ∈ nodes, node.height ≤ n := by
  induction nodes with
  | nil => simp [heights]
  | cons node rest ih => rw [heights, Nat.max_le, ih, List.forall_mem_cons]

mutual

theorem reach_le_height : (node : Node) → node.reach ≤ node.height
  | .rule _ children none => by
    rw [reach, height]
    exact Nat.succ_le_succ (reaches_le_heights children)
  | .rule _ _ (some _) | .token .. | .foreign _ => Nat.zero_le _

theorem reaches_le_heights : (nodes : List Node) → reaches nodes ≤ heights nodes
  | [] => Nat.le_refl 0
  | node :: rest => by
    have hnode := reach_le_height node
    have hrest := reaches_le_heights rest
    rw [reaches, heights]
    split <;> omega

end

end Node

/-- A room has five frames for each level of a tree. -/
def Room.Admits (room : Room) (node : Node) : Prop := room.holds (5 * node.height)

namespace Room

variable {room : Room} {label : String} {children : List Node} {position : Option Position}

theorem admits_some {left : Nat} {node : Node} :
    Admits (some left) node ↔ 5 * node.height ≤ left := holds_some

/-- A room that admits a rule node leaves room for all children when as many frames are taken as
any step takes. -/
theorem Admits.exists_take? {frames : Nat} (hframes : frames ≤ 5)
    (h : room.Admits (.rule label children position)) :
    ∃ inner, room.take? frames = some inner ∧ ∀ child ∈ children, inner.Admits child := by
  cases room with
  | none => exact ⟨none, rfl, fun _ _ => rfl⟩
  | some left =>
    rw [admits_some, Node.height] at h
    refine ⟨_, take?_some (by omega), fun child hchild => ?_⟩
    have hheight : child.height ≤ Node.heights children :=
      Node.heights_le_iff.1 (Nat.le_refl _) child hchild
    rw [admits_some]
    omega

theorem Admits.holds_reach {node : Node} (h : room.Admits node) : room.holds node.reach := by
  cases room with
  | none => rfl
  | some left =>
    have hreach := node.reach_le_height
    rw [admits_some] at h
    exact holds_some.2 (by omega)

end Room

/-! ## Descriptions in a room -/

namespace Node

mutual

/-- In a room that is too small for a description, or else as in a larger one. -/
theorem obstacle?_upToDepth {r s : Room} (h : r.Within s) : (node : Node) →
    node.obstacle? r = some .depth ∨ node.obstacle? r = node.obstacle? s
  | .rule _ children _ => by
    rw [obstacle?, obstacle?]
    cases hr : r.take? descriptionFrames with
    | none => exact .inl rfl
    | some inner =>
      obtain ⟨wider, hs, hinner⟩ := h.take? hr
      rw [hs]
      exact firstObstacle?_upToDepth hinner children
  | .token .. | .foreign _ => .inr rfl

theorem firstObstacle?_upToDepth {r s : Room} (h : r.Within s) : (nodes : List Node) →
    firstObstacle? r nodes = some .depth ∨ firstObstacle? r nodes = firstObstacle? s nodes
  | [] => .inr rfl
  | node :: rest => by
    rw [firstObstacle?, firstObstacle?]
    obtain hdepth | heq := obstacle?_upToDepth h node
    · rw [hdepth]
      exact .inl rfl
    · rw [heq]
      cases node.obstacle? s with
      | none => exact firstObstacle?_upToDepth h rest
      | some obstacle => exact .inr rfl

end

mutual

theorem obstacle?_of_admits {room : Room} : (node : Node) → room.Admits node →
    node.obstacle? room ≠ some .depth
  | .rule _ children _, h => by
    obtain ⟨inner, hinner, hchildren⟩ := h.exists_take? (show descriptionFrames ≤ 5 by decide)
    rw [obstacle?, hinner]
    exact firstObstacle?_of_admits children hchildren
  | .token .., _ => by nofun
  | .foreign value, _ => by
    rw [obstacle?]
    split <;> nofun

theorem firstObstacle?_of_admits {room : Room} : (nodes : List Node) →
    (∀ node ∈ nodes, room.Admits node) → firstObstacle? room nodes ≠ some .depth
  | [], _ => by nofun
  | node :: rest, h => by
    rw [List.forall_mem_cons] at h
    have hnode := obstacle?_of_admits node h.1
    rw [firstObstacle?]
    cases hobstacle : node.obstacle? room with
    | none => exact firstObstacle?_of_admits rest h.2
    | some obstacle =>
      rw [hobstacle] at hnode
      exact hnode

end

/-- Without a bound the depth is no obstacle. -/
theorem obstacle?_none_ne (node : Node) : node.obstacle? none ≠ some .depth :=
  obstacle?_of_admits node rfl

end Node

/-! ## Own steps in a room -/

namespace Cause

/-- The node that was to be described, if one was. -/
def described? : Cause → Option Node
  | .operatorNotToken found | .unshowable found => some found
  | _ => none

/-- What becomes of a cause in a room: a node can only be described if there is room for it. -/
def inRoom (room : Room) (cause : Cause) : Cause :=
  if cause.described?.bind (Node.obstacle? room) = some .depth then .nestedTooDeeply else cause

variable {α β : Type} {room : Room} {cause : Cause}

theorem inRoom_of_ne (h : ∀ found, cause.described? = some found →
    found.obstacle? room ≠ some .depth) : cause.inRoom room = cause := by
  refine if_neg ?_
  cases hfound : cause.described? with
  | none => nofun
  | some found => exact h found hfound

theorem OfComputation.described?_eq (h : cause.OfComputation) : cause.described? = none := by
  cases cause <;> first | rfl | cases h

theorem inRoom_of_computation {x : Except Cause α} (h : Only OfComputation x) :
    x.mapError (inRoom room) = x := by
  cases x with
  | ok a => rfl
  | error cause =>
    have hnone : cause.described? = none := (h cause rfl).described?_eq
    exact congrArg Except.error (inRoom_of_ne fun found hfound => by simp [hnone] at hfound)

theorem mapError_bind (f : Cause → Cause) (x : Except Cause α) (next : α → Except Cause β) :
    (x >>= next).mapError f = x.mapError f >>= fun a => (next a).mapError f := by
  cases x <;> rfl

theorem mapError_mapM (f : Cause → Cause) (g : α → Except Cause β) (as : List α) :
    (as.mapM g).mapError f = as.mapM fun a => (g a).mapError f := by
  induction as with
  | nil => rfl
  | cons a as ih =>
    rw [List.mapM_cons, List.mapM_cons, mapError_bind, ← ih]
    simp only [mapError_bind]
    rfl

end Cause

theorem Node.described?_misplaced (node : Node) :
    (node.misplaced none).described? = some node := by
  have hnone := node.obstacle?_none_ne
  unfold misplaced
  cases hobstacle : node.obstacle? none with
  | none => rfl
  | some obstacle =>
    cases obstacle with
    | depth => exact absurd hobstacle hnone
    | value => rfl

theorem Node.misplaced_inRoom (room : Room) (node : Node) :
    node.misplaced room = (node.misplaced none).inRoom room := by
  obtain hdepth | heq := node.obstacle?_upToDepth room.within_none
  · have hbind : (node.misplaced none).described?.bind (obstacle? room) = some .depth := by
      rw [described?_misplaced]
      exact hdepth
    rw [Cause.inRoom, if_pos hbind, misplaced, hdepth]
  · have hkept : (node.misplaced none).inRoom room = node.misplaced none := by
      refine Cause.inRoom_of_ne fun found hfound => ?_
      rw [described?_misplaced] at hfound
      obtain rfl := Option.some.inj hfound
      rw [heq]
      exact node.obstacle?_none_ne
    rw [hkept, misplaced, heq]
    rfl

theorem Node.operatorText_inRoom (room : Room) (node : Node) :
    node.operatorText room = (node.operatorText none).mapError (Cause.inRoom room) := by
  cases node with
  | token kind text position => rfl
  | rule | foreign => exact congrArg Except.error (misplaced_inRoom room _)

theorem Value.shown_inRoom (room : Room) (value : Value) :
    value.shown = value.shown.mapError (Cause.inRoom room) := by
  obtain hshown | ⟨f, -, -, hhidden⟩ := value.shown_cases
  · rw [hshown]
    rfl
  · rw [hhidden]
    refine congrArg Except.error (Cause.inRoom_of_ne ?_).symm
    rintro found ⟨⟩
    exact (Node.foreign f).obstacle?_none_ne

namespace Rule

/-- The own step of a rule in a room is the one without bounds, but for the description of a node
that is too high. -/
theorem value_inRoom (r : Rule) (room : Room) (children : List Node) (values : List Value) :
    r.value room children values =
      (r.value none children values).mapError (Cause.inRoom room) := by
  unfold value
  split
  case h_4 => exact Value.shown_inRoom room _
  case h_6 =>
    rw [Node.operatorText_inRoom, Cause.mapError_bind]
    congr 1
    funext symbol
    rw [Cause.mapError_bind, Cause.inRoom_of_computation (Cause.only_compare symbol _ _)]
    rfl
  case h_8 =>
    split
    · exact (Cause.inRoom_of_computation (Cause.only_negate _)).symm
    · rw [Node.operatorText_inRoom, Cause.mapError_bind]
      rfl
  -- sums, products and powers
  case h_10 | h_11 | h_12 =>
    rw [Cause.mapError_bind, Cause.mapError_mapM]
    congr 1
    · congr 1
      funext node
      exact node.operatorText_inRoom room
    · funext symbols
      exact (Cause.inRoom_of_computation (Cause.only_applyInfix symbols _)).symm
  all_goals rfl

theorem operators_subset (children : List Node) : operators children ⊆ children := by
  fun_induction operators children with
  | case1 first operator rest ih =>
    intro node hnode
    obtain rfl | hnode := List.mem_cons.1 hnode
    · exact List.mem_cons_of_mem _ List.mem_cons_self
    · exact List.mem_cons_of_mem _ (List.mem_cons_of_mem _ (ih hnode))
  | case2 => exact List.nil_subset _

end Rule

/-- A cause of the own step of a node: it is not the lack of room, and describes at most a child or
a foreign value. -/
def Cause.ArisesIn (children : List Node) (cause : Cause) : Prop :=
  cause ≠ .nestedTooDeeply ∧
    ∀ found, cause.described? = some found → found ∈ children ∨ found.height = 0

namespace Cause

variable {children : List Node} {cause : Cause}

theorem arisesIn_of_none (hdeep : cause ≠ .nestedTooDeeply) (h : cause.described? = none) :
    cause.ArisesIn children :=
  ⟨hdeep, fun found hfound => by simp [h] at hfound⟩

theorem OfComputation.arisesIn (h : cause.OfComputation) : cause.ArisesIn children := by
  refine arisesIn_of_none ?_ h.described?_eq
  rintro rfl
  exact h

theorem arisesIn_misplaced {node : Node} (h : node ∈ children) :
    (node.misplaced none).ArisesIn children := by
  constructor
  · intro hdeep
    have hdescribed := node.described?_misplaced
    rw [hdeep] at hdescribed
    cases hdescribed
  · intro found hfound
    rw [node.described?_misplaced] at hfound
    obtain rfl := Option.some.inj hfound
    exact .inl h

theorem only_operatorText {node : Node} (h : node ∈ children) :
    Only (ArisesIn children) (node.operatorText none) := by
  cases node with
  | token kind text position => exact only_ok _ _
  | rule | foreign => exact only_error (arisesIn_misplaced h)

theorem OfDisplay.arisesIn (h : cause.OfDisplay) : cause.ArisesIn children := by
  obtain ⟨f, rfl⟩ := h
  refine ⟨nofun, ?_⟩
  rintro found ⟨⟩
  exact .inr rfl

theorem only_check (r : Rule) (children : List Node) :
    Only (ArisesIn children) (r.check children) := by
  unfold Rule.check
  split
  case h_1 =>
    split
    · exact only_ok _ _
    · exact only_error (arisesIn_of_none nofun rfl)
  case h_2 | h_4 | h_6 | h_8 => exact only_error (arisesIn_of_none nofun rfl)
  case h_3 | h_5 | h_7 | h_9 => exact only_ok _ _

theorem only_value (r : Rule) (children : List Node) (values : List Value) :
    Only (ArisesIn children) (r.value none children values) := by
  have hsymbols : Only (ArisesIn children) ((Rule.operators children).mapM
      (Node.operatorText none)) :=
    Only.mapM fun operator h => only_operatorText (Rule.operators_subset children h)
  unfold Rule.value
  split
  case h_1 | h_2 => exact only_ok _ _
  case h_4 => exact (only_shown _).mono fun _ => OfDisplay.arisesIn
  case h_3 | h_5 | h_7 | h_9 => exact only_error (arisesIn_of_none nofun rfl)
  case h_6 =>
    refine (only_operatorText (by simp)).bind fun symbol => ?_
    refine ((only_compare symbol _ _).mono fun _ => OfComputation.arisesIn).bind fun result => ?_
    exact only_ok _ _
  case h_8 =>
    split
    · exact (only_negate _).mono fun _ => OfComputation.arisesIn
    · exact (only_operatorText (by simp)).bind fun symbol =>
        only_error (arisesIn_of_none nofun rfl)
  case h_10 | h_11 | h_12 =>
    refine hsymbols.bind fun symbols => ?_
    exact (only_applyInfix symbols _).mono fun _ => OfComputation.arisesIn

theorem inRoom_ne_nestedTooDeeply {room : Room} (h : cause.ArisesIn children)
    (hroom : ∀ child ∈ children, room.Admits child) : cause.inRoom room ≠ .nestedTooDeeply := by
  rw [inRoom_of_ne]
  · exact h.1
  · intro found hfound
    obtain hchild | hleaf := h.2 found hfound
    · exact found.obstacle?_of_admits (hroom found hchild)
    · refine found.obstacle?_of_admits ?_
      rw [Room.Admits, hleaf]
      exact room.holds_zero

end Cause

/-! ## Trees that the room admits -/

namespace Outcome

variable {α β : Type} {x : Outcome α} {env : Environment}

/-- An outcome that is no failure for lack of room. -/
def HasRoom (x : Outcome α) : Prop :=
  ∀ fault, x.result = .error fault → fault.cause ≠ .nestedTooDeeply

theorem hasRoom_ok (a : α) (env : Environment) : HasRoom ⟨.ok a, env⟩ := by
  intro fault h
  cases h

theorem hasRoom_ofExcept {e : Except Cause α} (h : e ≠ .error .nestedTooDeeply)
    (env : Environment) : (ofExcept env e).HasRoom := by
  intro fault hfault hcause
  cases e with
  | ok a => cases hfault
  | error cause =>
    cases hfault
    exact h (congrArg Except.error hcause)

theorem HasRoom.andThen {next : α → Environment → Outcome β} (h : x.HasRoom)
    (hnext : ∀ a env, (next a env).HasRoom) : (x.andThen next).HasRoom := by
  obtain ⟨result, env⟩ := x
  cases result with
  | ok a => exact hnext a env
  | error fault =>
    intro found hfound
    cases hfound
    exact h fault rfl

theorem HasRoom.locate {room : Room} {node : Node} (h : x.HasRoom)
    (hreach : room.holds node.reach) : (x.locate room node).HasRoom := by
  obtain ⟨result, env⟩ := x
  cases result with
  | ok a => exact hasRoom_ok a env
  | error fault =>
    intro found hfound
    cases hfound
    rw [Fault.cause_locate_of_holds hreach]
    exact h fault rfl

end Outcome

theorem Rule.hasRoom_finish {room : Room} {children : List Node}
    (hroom : ∀ child ∈ children, room.Admits child) (r : Rule) (values : List Value)
    (env : Environment) : (r.finish room children values env).HasRoom := by
  have hcauses := Cause.only_value r children values
  rw [finish, value_inRoom]
  cases hvalue : r.value none children values with
  | ok value => exact Outcome.hasRoom_ok _ _
  | error cause =>
    intro fault hfault
    cases hfault
    exact Cause.inRoom_ne_nestedTooDeeply (hcauses cause hvalue) hroom

namespace Node

mutual

/-- A tree that the room admits does not run out of it. -/
theorem hasRoom_eval {room : Room} (env : Environment) : (node : Node) → room.Admits node →
    (node.eval room env).HasRoom
  | .foreign _, _ => by
    rw [eval]
    exact Outcome.hasRoom_ofExcept (by nofun) env
  | .token kind text position, h => by
    have hvalue : tokenValue env.bindings kind text ≠ .error .nestedTooDeeply :=
      fun hdeep => Cause.only_tokenValue env.bindings kind text _ hdeep
    rw [eval]
    exact (Outcome.hasRoom_ofExcept hvalue env).locate h.holds_reach
  | .rule label children position, h => by
    obtain ⟨inner, henter, hchildren⟩ := h.exists_take? (labelFrames_le label)
    rw [eval, Room.enter?, henter]
    refine Outcome.HasRoom.locate ?_ h.holds_reach
    cases Rule.ofLabel? label with
    | none => exact Outcome.hasRoom_ofExcept (by nofun) env
    | some r =>
      have hcheck : r.check children ≠ .error .nestedTooDeeply :=
        fun hdeep => (Cause.only_check r children _ hdeep).1 rfl
      refine (Outcome.hasRoom_ofExcept hcheck env).andThen fun _ env => ?_
      refine (hasRoom_evalChildren r env 0 children hchildren).andThen fun values env => ?_
      exact r.hasRoom_finish hchildren values env

theorem hasRoom_evalChildren {room : Room} (r : Rule) (env : Environment) (index : Nat) :
    (children : List Node) → (∀ child ∈ children, room.Admits child) →
    (evalChildren r room env index children).HasRoom
  | [], _ => by
    rw [evalChildren]
    exact Outcome.hasRoom_ok [] env
  | node :: rest, h => by
    rw [List.forall_mem_cons] at h
    rw [evalChildren]
    split
    · refine (hasRoom_eval env node h.1).andThen fun value env => ?_
      refine (hasRoom_evalChildren r env (index + 1) rest h.2).andThen fun values env => ?_
      exact Outcome.hasRoom_ok _ env
    · exact hasRoom_evalChildren r env (index + 1) rest h.2

end

end Node

/-! ## Trees that are evaluated with success -/

namespace Node

variable {node : Node}

theorem height_of_isName (h : node.isName) : node.height = 0 := by
  cases node with
  | token kind text position => rw [height]
  | rule | foreign => cases h

theorem height_of_isMinus (h : node.isMinus) : node.height = 0 := by
  cases node with
  | token kind text position => rw [height]
  | rule | foreign => cases h

theorem height_of_operatorText {room : Room} {text : String}
    (h : node.operatorText room = .ok text) : node.height = 0 := by
  cases node with
  | token kind text position => rw [height]
  | rule | foreign => cases h

end Node

namespace Rule

variable {r : Rule} {room : Room} {children : List Node} {values : List Value} {value : Value}

theorem height_of_mapM_operatorText {operators : List Node} {symbols : List String}
    (h : operators.mapM (Node.operatorText room) = .ok symbols) :
    ∀ operator ∈ operators, operator.height = 0 := by
  induction operators generalizing symbols with
  | nil => simp
  | cons operator rest ih =>
    rw [List.mapM_cons] at h
    obtain ⟨text, htext, h⟩ := exists_of_bind_eq_ok h
    obtain ⟨texts, htexts, -⟩ := exists_of_bind_eq_ok h
    exact List.forall_mem_cons.2 ⟨Node.height_of_operatorText htext, ih htexts⟩

/-- Operands are evaluated and operators stand between them. -/
theorem mem_evaluated_or_operators (h : ∀ index, r.evaluates index ↔ index % 2 = 0) {index : Nat}
    (hindex : index % 2 = 0) :
    ∀ child ∈ children, child ∈ Node.evaluated r index children ∨ child ∈ operators children := by
  fun_induction operators children generalizing index with
  | case1 first operator rest ih =>
    have heven : r.evaluates index := (h index).2 hindex
    have hodd : ¬ r.evaluates (index + 1) := by
      rw [h]
      omega
    have hrest : ∀ child ∈ rest,
        child ∈ Node.evaluated r (index + 1 + 1) rest ∨ child ∈ operators rest := ih (by omega)
    rw [Node.evaluated, if_pos heven, Node.evaluated, if_neg hodd]
    intro child hchild
    simp only [List.mem_cons] at hchild ⊢
    obtain rfl | rfl | hchild := hchild
    · exact .inl (.inl rfl)
    · exact .inr (.inl rfl)
    · exact (hrest child hchild).imp .inr .inr
  | case2 children hshort =>
    intro child hchild
    cases children with
    | nil => cases hchild
    | cons first rest =>
      cases rest with
      | nil =>
        have heven : r.evaluates index := (h index).2 hindex
        rw [Node.evaluated, if_pos heven]
        exact .inl (List.mem_cons.2 (.inl (List.mem_singleton.1 hchild)))
      | cons operator rest => exact absurd rfl (hshort first operator rest)

theorem exists_of_check_assign (h : Rule.assign.check children = .ok ()) :
    ∃ target operand, children = [target, operand] ∧ target.isName := by
  match children, h with
  | [target, operand], h =>
    rw [check] at h
    split at h
    · exact ⟨target, operand, rfl, ‹_›⟩
    · cases h

theorem exists_of_check_print (h : Rule.print.check children = .ok ()) :
    ∃ operand, children = [operand] := by
  match children, h with
  | [operand], _ => exact ⟨operand, rfl⟩

theorem exists_of_check_compare (h : Rule.compare.check children = .ok ()) :
    ∃ first operator second, children = [first, operator, second] := by
  match children, h with
  | [first, operator, second], _ => exact ⟨first, operator, second, rfl⟩

/-- A rule node that has a value has evaluated all of its children but leaves. -/
theorem mem_evaluated (hcheck : r.check children = .ok ())
    (h : r.value room children values = .ok value) :
    ∀ child ∈ children, child ∈ Node.evaluated r 0 children ∨ child.height = 0 := by
  unfold Rule.value at h
  split at h
  case h_1 =>
    rw [Node.evaluated_program]
    exact fun child => .inl
  case h_2 =>
    obtain ⟨target, operand, rfl, hname⟩ := exists_of_check_assign hcheck
    rw [List.forall_mem_cons, List.forall_mem_singleton]
    exact ⟨.inr (Node.height_of_isName hname), .inl List.mem_cons_self⟩
  case h_4 =>
    obtain ⟨operand, rfl⟩ := exists_of_check_print hcheck
    exact fun child => .inl
  case h_6 left operator right _ _ =>
    obtain ⟨symbol, hsymbol, -⟩ := exists_of_bind_eq_ok h
    rw [List.forall_mem_cons, List.forall_mem_cons, List.forall_mem_singleton]
    exact ⟨.inl List.mem_cons_self, .inr (Node.height_of_operatorText hsymbol),
      .inl (List.mem_cons_of_mem left List.mem_cons_self)⟩
  case h_8 operator operand _ =>
    split at h
    · rename_i hminus
      rw [List.forall_mem_cons, List.forall_mem_singleton]
      exact ⟨.inr (Node.height_of_isMinus hminus), .inl List.mem_cons_self⟩
    · obtain ⟨symbol, -, h⟩ := exists_of_bind_eq_ok h
      cases h
  case h_10 | h_11 | h_12 =>
    obtain ⟨symbols, hsymbols, -⟩ := exists_of_bind_eq_ok h
    intro child hchild
    refine Or.imp_right (height_of_mapM_operatorText hsymbols child) ?_
    exact mem_evaluated_or_operators (fun index => beq_iff_eq) rfl child hchild
  all_goals cases h

end Rule

namespace Node

mutual

/-- A tree that has a value in a room has had four frames for each level. -/
theorem height_le_of_eval {n : Nat} {env : Environment} {value : Value} : (node : Node) →
    (node.eval (some n) env).result = .ok value → 4 * node.height ≤ n
  | .foreign _, _ => Nat.zero_le n
  | .token .., _ => Nat.zero_le n
  | .rule label children position, h => by
    rw [eval] at h
    cases henter : Room.enter? (some n) label with
    | none =>
      rw [henter] at h
      cases h
    | some inner =>
      obtain ⟨hframes, hinner⟩ := Option.ite_none_right_eq_some.1 henter
      obtain rfl := Option.some.inj hinner
      rw [henter] at h
      dsimp only at h
      rw [Outcome.result_locate_eq_ok] at h
      cases hrule : Rule.ofLabel? label with
      | none =>
        rw [hrule] at h
        cases h
      | some r =>
        obtain rfl := Rule.label_of_ofLabel? hrule
        simp only [hrule] at h
        obtain ⟨_, hcheck, h⟩ := Outcome.result_andThen_eq_ok.1 h
        rw [Outcome.result_ofExcept_eq_ok] at hcheck
        obtain ⟨values, hvalues, h⟩ := Outcome.result_andThen_eq_ok.1 h
        rw [Rule.result_finish_eq_ok] at h
        have hevaluated := height_le_of_evalChildren r 0 children hvalues
        have hheights : heights children ≤ (n - r.frames) / 4 := by
          rw [heights_le_iff]
          intro child hchild
          obtain hmem | hleaf := Rule.mem_evaluated hcheck h child hchild
          · have hchild : 4 * child.height ≤ n - labelFrames r.label := hevaluated child hmem
            rw [labelFrames_label] at hchild
            omega
          · omega
        have hfour := r.le_frames
        rw [Room.holds_some, labelFrames_label] at hframes
        rw [height]
        omega

theorem height_le_of_evalChildren {m : Nat} {env : Environment} {values : List Value} (r : Rule)
    (index : Nat) : (children : List Node) →
    (evalChildren r (some m) env index children).result = .ok values →
    ∀ child ∈ evaluated r index children, 4 * child.height ≤ m
  | [], _ => by simp [evaluated]
  | node :: rest, h => by
    rw [evalChildren] at h
    rw [evaluated]
    split at h
    · rename_i hchosen
      obtain ⟨value, hvalue, h⟩ := Outcome.result_andThen_eq_ok.1 h
      obtain ⟨others, hothers, -⟩ := Outcome.result_andThen_eq_ok.1 h
      rw [if_pos hchosen, List.forall_mem_cons]
      exact ⟨height_le_of_eval node hvalue, height_le_of_evalChildren r (index + 1) rest hothers⟩
    · rename_i hpassed
      rw [if_neg hpassed]
      exact height_le_of_evalChildren r (index + 1) rest h

end

end Node

end Reckon
