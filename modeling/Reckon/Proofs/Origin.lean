import Reckon.Proofs.Events
import Reckon.Proofs.Sequence

/-!
# Where faults come from

An evaluation that fails does so at one node, whose own step fails although all evaluations that it
asks for succeed.  `Call.Raised` gives this node together with the nodes around it, from the inside
out.  The fault has the position of the first of these nodes for which one is found, and no node
further out changes it: `evaluate_position`.
-/

namespace Reckon

/-! ## Positions -/

namespace Node

/-- Whether a node is a token. -/
def isToken : Node → Bool
  | .token .. => true
  | _ => false

/-- The position that a node itself has. -/
def ownPosition? : Node → Option Position
  | .rule _ _ position => position
  | .token _ _ position => position
  | .foreign _ => none

mutual

theorem findSome?_preorder (depth : Int) : (node : Node) →
    ((node.preorder depth).map Prod.snd).findSome? ownPosition? = node.position?
  | .rule label children position => by
    rw [preorder, List.map_cons, List.findSome?_cons, findSome?_preorders (depth + 1) children]
    cases position <;> rfl
  | .token kind text position => by cases position <;> rfl
  | .foreign _ => rfl

theorem findSome?_preorders (depth : Int) : (nodes : List Node) →
    ((preorders depth nodes).map Prod.snd).findSome? ownPosition? = firstPosition? nodes
  | [] => rfl
  | node :: rest => by
    rw [preorders, List.map_append, List.findSome?_append, findSome?_preorder depth node,
      findSome?_preorders depth rest, firstPosition?]
    cases node.position? <;> rfl

end

/-- The position of a node is the own position of the first node in it that has one. -/
theorem position?_eq (node : Node) :
    node.position? = (node.nodes.map Prod.snd).findSome? ownPosition? := by
  rw [nodes_eq, findSome?_preorder]

theorem position?_of_own {node : Node} (h : node.ownPosition?.isSome) :
    node.position? = node.ownPosition? := by
  obtain ⟨position, hposition⟩ := Option.isSome_iff_exists.1 h
  cases node with
  | rule label children own =>
    obtain rfl : own = some position := hposition
    rfl
  | token kind text own => rfl
  | foreign value => cases h

theorem mem_preorder_self (depth : Int) (node : Node) : (depth, node) ∈ node.preorder depth := by
  cases node <;> simp [preorder]

theorem preorder_subset_preorders {depth : Int} {node : Node} {nodes : List Node}
    (h : node ∈ nodes) : node.preorder depth ⊆ preorders depth nodes := by
  induction nodes with
  | nil => cases h
  | cons first rest ih =>
    rw [preorders]
    obtain rfl | h := List.mem_cons.1 h
    · exact List.subset_append_left _ _
    · exact List.subset_append_of_subset_right _ (ih h)

theorem size_lt_of_mem {node child : Node} (h : child ∈ node.children) :
    child.size < node.size := by
  have hle : ∀ nodes : List Node, child ∈ nodes → child.size ≤ sizes nodes := by
    intro nodes hmem
    induction nodes with
    | nil => cases hmem
    | cons first rest ih =>
      rw [sizes]
      obtain rfl | hmem := List.mem_cons.1 hmem
      · omega
      · have := ih hmem
        omega
  have := hle node.children h
  rw [size_eq node]
  omega

end Node

/-- A fault that has been placed at a node, and can have a position, has its own or that of the
node. -/
theorem Fault.position_locate {room : Room} {node : Node} {fault : Fault}
    (h : (fault.locate room node).cause.isPlaceless = false) :
    fault.cause.isPlaceless = false ∧
      (fault.locate room node).position = fault.position.or node.position? := by
  rw [locate] at h ⊢
  split at h
  · rename_i hkept
    rw [h, Bool.false_or] at hkept
    rw [if_pos (by rw [hkept, Bool.or_true]), Option.or_of_isSome hkept]
    exact ⟨h, rfl⟩
  · rename_i hkept
    rw [Bool.not_eq_true, Bool.or_eq_false_iff] at hkept
    obtain ⟨hplace, hposition⟩ := hkept
    rw [Option.isSome_eq_false_iff, Option.isNone_iff_eq_none] at hposition
    rw [if_neg (by simp [hplace, hposition])]
    split at h
    · rename_i hholds
      rw [if_pos hholds, hposition, Option.none_or]
      exact ⟨hplace, rfl⟩
    · cases h

namespace Node

/-! ## Children in a row -/

theorem index_add_length_cons (index : Nat) (node : Node) (rest : List Node) :
    index + (node :: rest).length = index + 1 + rest.length := by
  rw [List.length_cons]
  omega

theorem evalChildren_append (r : Rule) (room : Room) (env : Environment) (index : Nat)
    (before after : List Node) :
    evalChildren r room env index (before ++ after) =
      (evalChildren r room env index before).andThen fun values env =>
        (evalChildren r room env (index + before.length) after).map (values ++ ·) := by
  induction before generalizing env index with
  | nil =>
    have hnil : evalChildren r room env index [] = ⟨.ok [], env⟩ := by rw [evalChildren]
    rw [hnil, List.nil_append, Outcome.andThen_ok]
    obtain ⟨_ | _, _⟩ := evalChildren r room env index after <;> rfl
  | cons node before ih =>
    rw [List.cons_append, evalChildren, evalChildren, index_add_length_cons]
    split
    · rw [Outcome.andThen_assoc]
      congr 1
      funext value env
      rw [ih, Outcome.andThen_assoc, Outcome.andThen_assoc]
      congr 1
      funext values env
      rw [Outcome.andThen_ok]
      exact Outcome.map_map _ _ _
    · exact ih env (index + 1)

/-- Children that fail do so at one of them, those in front of it having succeeded. -/
theorem exists_of_evalChildren_error {r : Rule} {room : Room} {env : Environment} {index : Nat}
    {children : List Node} {fault : Fault}
    (h : (evalChildren r room env index children).result = .error fault) :
    ∃ before child after values now, children = before ++ child :: after ∧
      r.evaluates (index + before.length) ∧
      evalChildren r room env index before = ⟨.ok values, now⟩ ∧
      (child.eval room now).result = .error fault := by
  induction children generalizing env index with
  | nil =>
    rw [evalChildren] at h
    cases h
  | cons node rest ih =>
    rw [evalChildren] at h
    by_cases hchosen : r.evaluates index
    · rw [if_pos hchosen] at h
      cases heval : node.eval room env with
      | mk result now =>
        cases result with
        | error found =>
          rw [heval] at h
          cases h
          exact ⟨[], node, rest, [], env, rfl, hchosen, by rw [evalChildren], by rw [heval]⟩
        | ok value =>
          rw [heval] at h
          have hrest := congrArg Outcome.result (Outcome.eq_error_of_map h)
          obtain ⟨before, child, after, values, last, rfl, hchild, hbefore, hfault⟩ := ih hrest
          refine ⟨node :: before, child, after, value :: values, last, rfl, ?_, ?_, hfault⟩
          · rwa [index_add_length_cons]
          · rw [evalChildren, if_pos hchosen, heval, Outcome.andThen_ok, hbefore]
            rfl
    · rw [if_neg hchosen] at h
      obtain ⟨before, child, after, values, last, rfl, hchild, hbefore, hfault⟩ := ih h
      refine ⟨node :: before, child, after, values, last, rfl, ?_, ?_, hfault⟩
      · rwa [index_add_length_cons]
      · rw [evalChildren, if_neg hchosen, hbefore]

/-- Children fail with the first of them that does. -/
theorem evalChildren_of_error {r : Rule} {room : Room} {env now : Environment} {index : Nat}
    {before after : List Node} {child : Node} {values : List Value} {fault : Fault}
    (hbefore : evalChildren r room env index before = ⟨.ok values, now⟩)
    (hchosen : r.evaluates (index + before.length))
    (hchild : (child.eval room now).result = .error fault) :
    (evalChildren r room env index (before ++ child :: after)).result = .error fault := by
  have heval : child.eval room now = ⟨.error fault, (child.eval room now).env⟩ := by
    rw [← hchild]
  rw [evalChildren_append, hbefore, Outcome.andThen_ok, evalChildren, if_pos hchosen, heval]
  rfl

end Node

/-! ## Calls -/

/-- An evaluation of a node, in some room and environment. -/
structure Call where
  room : Room
  env : Environment
  node : Node

namespace Call

/-- What an evaluation comes to. -/
def outcome (call : Call) : Outcome Value := call.node.eval call.room call.env

/-- An evaluation asks for another: that of a child which its rule evaluates, once the shape has
been accepted and the children in front have been evaluated. -/
inductive Asks (call inner : Call) : Prop
  | child {r : Rule} {before after : List Node} {position : Option Position} {values : List Value}
      (hnode : call.node = .rule r.label (before ++ inner.node :: after) position)
      (henter : call.room.enter? r.label = some inner.room)
      (hcheck : r.check (before ++ inner.node :: after) = .ok ())
      (hchosen : r.evaluates before.length)
      (hbefore : Node.evalChildren r inner.room call.env 0 before = ⟨.ok values, inner.env⟩)

/-- The node at which an evaluation fails, and the nodes around it from the inside out.  Its own
step fails, since all evaluations that it asks for succeed. -/
inductive Raised : Call → Node → List Node → Prop
  | here {call : Call} {fault : Fault} (hfault : call.outcome.result = .error fault)
      (hasked : ∀ inner, Asks call inner → ∃ value, inner.outcome.result = .ok value) :
      Raised call call.node []
  | inside {call inner : Call} {origin : Node} {around : List Node} (hasks : Asks call inner)
      (h : Raised inner origin around) : Raised call origin (around ++ [call.node])

variable {call inner other : Call} {fault found : Fault} {origin : Node} {around : List Node}

theorem Asks.mem_children (h : Asks call inner) : inner.node ∈ call.node.children := by
  obtain ⟨hnode, -, -, -, -⟩ := h
  rw [hnode]
  exact List.mem_append_right _ List.mem_cons_self

/-! ## One step outwards -/

theorem outcome_of_check {room : Room} {r : Rule} {children : List Node}
    {position : Option Position} (hnode : call.node = .rule r.label children position)
    (henter : call.room.enter? r.label = some room) (hcheck : r.check children = .ok ()) :
    call.outcome = Outcome.locate call.room call.node
      ((Node.evalChildren r room call.env 0 children).andThen fun values env =>
        r.finish room children values env) := by
  rw [outcome, hnode, Node.eval_rule hcheck, henter]

/-- A fault passes from an evaluation to the one that asks for it, which places it if it has no
position yet. -/
theorem Asks.result_eq (h : Asks call inner) (hfault : inner.outcome.result = .error fault) :
    call.outcome.result = .error (fault.locate call.room call.node) := by
  obtain ⟨hnode, henter, hcheck, hchosen, hbefore⟩ := h
  rename_i r before after position values
  have hchildren : (Node.evalChildren r inner.room call.env 0
      (before ++ inner.node :: after)).result = .error fault :=
    Node.evalChildren_of_error hbefore (by rwa [Nat.zero_add]) hfault
  rw [outcome_of_check hnode henter hcheck]
  generalize Node.evalChildren r inner.room call.env 0 (before ++ inner.node :: after) = outcome
    at hchildren ⊢
  obtain ⟨result, last⟩ := outcome
  obtain rfl : result = .error fault := hchildren
  rfl

/-- A fault that arises at a node is placed there. -/
def IsOwn (call : Call) (fault : Fault) : Prop :=
  ∃ cause, fault = Fault.locate call.room call.node ⟨cause, none⟩

theorem isOwn_of_locate {outcome : Outcome Value} {cause : Cause} {env : Environment}
    (hown : outcome = ⟨.error ⟨cause, none⟩, env⟩)
    (hfault : (outcome.locate call.room call.node).result = .error fault) : call.IsOwn fault := by
  subst hown
  cases hfault
  exact ⟨cause, rfl⟩

/-- Behind the check of its shape, a rule node fails with a child or in its last step. -/
theorem result_cases_of_check {room : Room} {r : Rule} {children : List Node}
    {position : Option Position} (hnode : call.node = .rule r.label children position)
    (henter : call.room.enter? r.label = some room) (hcheck : r.check children = .ok ())
    (hfault : call.outcome.result = .error fault) :
    (∃ asked found, Asks call asked ∧ asked.outcome.result = .error found) ∨ call.IsOwn fault := by
  rw [outcome_of_check hnode henter hcheck] at hfault
  cases hchildren : Node.evalChildren r room call.env 0 children with
  | mk result now =>
    cases result with
    | error found =>
      have hresult := congrArg Outcome.result hchildren
      obtain ⟨before, child, after, values, last, rfl, hchosen, hbefore, hchild⟩ :=
        Node.exists_of_evalChildren_error hresult
      rw [Nat.zero_add] at hchosen
      exact .inl ⟨⟨room, last, child⟩, found, .child hnode henter hcheck hchosen hbefore, hchild⟩
    | ok values =>
      rw [hchildren, Outcome.andThen_ok, Rule.finish] at hfault
      cases hvalue : r.value room children values with
      | ok value =>
        rw [hvalue] at hfault
        cases hfault
      | error cause =>
        rw [hvalue] at hfault
        exact .inr (isOwn_of_locate rfl hfault)

/-- An evaluation that fails has a fault of its own, unless one that it asks for fails. -/
theorem result_cases (hfault : call.outcome.result = .error fault) :
    (∃ asked found, Asks call asked ∧ asked.outcome.result = .error found) ∨ call.IsOwn fault := by
  obtain ⟨room, env, node⟩ := call
  cases node with
  | foreign value =>
    cases hfault
    refine .inr ⟨.unsupportedNode none, ?_⟩
    simp [Fault.locate, Cause.isPlaceless, Node.reach, Node.position?]
  | token kind text position =>
    rw [outcome, Node.eval] at hfault
    cases hvalue : tokenValue env.bindings kind text with
    | ok value =>
      rw [hvalue] at hfault
      cases hfault
    | error cause =>
      rw [hvalue] at hfault
      exact .inr (isOwn_of_locate rfl hfault)
  | rule label children position =>
    cases henter : room.enter? label with
    | none =>
      rw [outcome, Node.eval, henter] at hfault
      cases hfault
      exact .inr ⟨.nestedTooDeeply, rfl⟩
    | some inner =>
      cases hrule : Rule.ofLabel? label with
      | none =>
        rw [outcome, Node.eval, henter, hrule] at hfault
        exact .inr (isOwn_of_locate rfl hfault)
      | some r =>
        cases hcheck : r.check children with
        | error cause =>
          rw [outcome, Node.eval, henter, hrule] at hfault
          simp only [hcheck] at hfault
          exact .inr (isOwn_of_locate rfl hfault)
        | ok =>
          obtain rfl := Rule.label_of_ofLabel? hrule
          exact result_cases_of_check rfl henter hcheck hfault

/-- Children that succeed do not go beyond one that fails. -/
theorem eq_nil_of_evalChildren {r : Rule} {room : Room} {env now last : Environment}
    {before more after rest : List Node} {child : Node} {values others : List Value}
    (hbefore : Node.evalChildren r room env 0 before = ⟨.ok values, now⟩)
    (hchosen : r.evaluates before.length) (hfault : (child.eval room now).result = .error fault)
    (hmore : Node.evalChildren r room env 0 (before ++ more) = ⟨.ok others, last⟩)
    (hsplit : child :: after = more ++ rest) : more = [] := by
  cases more with
  | nil => rfl
  | cons first more =>
    obtain ⟨rfl, -⟩ := List.cons.inj hsplit
    have hresult : (Node.evalChildren r room env 0 (before ++ child :: more)).result =
        .error fault :=
      Node.evalChildren_of_error hbefore (by rwa [Nat.zero_add]) hfault
    rw [hmore] at hresult
    cases hresult

/-- Of the evaluations that one asks for, at most one fails. -/
theorem Asks.eq_of_error (h : Asks call inner) (h' : Asks call other)
    (hfault : inner.outcome.result = .error fault)
    (hfound : other.outcome.result = .error found) : inner = other := by
  obtain ⟨room, env, node⟩ := inner
  obtain ⟨room', env', node'⟩ := other
  obtain ⟨hnode, henter, -, hchosen, hbefore⟩ := h
  obtain ⟨hnode', henter', -, hchosen', hbefore'⟩ := h'
  rename_i r before after position values r' before' after' position' values'
  obtain ⟨hlabel, hchildren, -⟩ := Node.rule.inj (hnode.symm.trans hnode')
  obtain rfl : r = r' := by
    rw [← Option.some.injEq, ← Rule.ofLabel?_label, hlabel, Rule.ofLabel?_label]
  obtain rfl : room = room' := Option.some.inj (henter.symm.trans henter')
  have hsame : before = before' := by
    obtain ⟨more, rfl, hsplit⟩ | ⟨more, rfl, hsplit⟩ := List.append_eq_append_iff.1 hchildren
    · rw [eq_nil_of_evalChildren hbefore hchosen hfault hbefore' hsplit, List.append_nil]
    · rw [eq_nil_of_evalChildren hbefore' hchosen' hfound hbefore hsplit, List.append_nil]
  subst hsame
  obtain ⟨rfl, -⟩ := List.cons.inj (List.append_cancel_left hchildren)
  rw [hbefore] at hbefore'
  cases hbefore'
  rfl

/-! ## From the origin outwards -/

theorem Raised.exists_fault (h : Raised call origin around) :
    ∃ fault, call.outcome.result = .error fault := by
  induction h with
  | here hfault _ => exact ⟨_, hfault⟩
  | inside hasks _ ih =>
    obtain ⟨fault, hfault⟩ := ih
    exact ⟨_, hasks.result_eq hfault⟩

theorem exists_raised (hfault : call.outcome.result = .error fault) :
    ∃ origin around, Raised call origin around := by
  induction hn : call.node.size using Nat.strong_induction_on generalizing call fault with
  | _ n ih =>
    by_cases hasked : ∃ asked found, Asks call asked ∧ asked.outcome.result = .error found
    · obtain ⟨asked, found, hasks, hfound⟩ := hasked
      have hsmaller : asked.node.size < n := hn ▸ Node.size_lt_of_mem hasks.mem_children
      obtain ⟨origin, around, hraised⟩ := ih _ hsmaller hfound rfl
      exact ⟨origin, around ++ [call.node], .inside hasks hraised⟩
    · refine ⟨call.node, [], .here hfault fun inner hasks => ?_⟩
      cases hresult : inner.outcome.result with
      | ok value => exact ⟨value, rfl⟩
      | error found => exact absurd ⟨inner, found, hasks, hresult⟩ hasked

theorem not_raised_of_ok {value : Value} (hvalue : inner.outcome.result = .ok value) :
    ¬ Raised inner origin around := by
  intro h
  obtain ⟨fault, hfault⟩ := h.exists_fault
  rw [hvalue] at hfault
  cases hfault

/-- There is one node at which an evaluation fails. -/
theorem Raised.unique {origin' : Node} {around' : List Node} (h : Raised call origin around)
    (h' : Raised call origin' around') : origin' = origin ∧ around' = around := by
  induction h generalizing origin' around' with
  | here _ hasked =>
    cases h' with
    | here => exact ⟨rfl, rfl⟩
    | inside hasks hinner =>
      obtain ⟨value, hvalue⟩ := hasked _ hasks
      exact absurd hinner (not_raised_of_ok hvalue)
  | inside hasks hinner ih =>
    cases h' with
    | here _ hasked =>
      obtain ⟨value, hvalue⟩ := hasked _ hasks
      exact absurd hinner (not_raised_of_ok hvalue)
    | inside hasks' hinner' =>
      obtain ⟨fault, hfault⟩ := hinner.exists_fault
      obtain ⟨found, hfound⟩ := hinner'.exists_fault
      obtain rfl := hasks.eq_of_error hasks' hfault hfound
      obtain ⟨rfl, rfl⟩ := ih hinner'
      exact ⟨rfl, rfl⟩

/-- A fault has the position of the first node, from its origin outwards, for which one is found. -/
theorem Raised.position_eq (h : Raised call origin around)
    (hfault : call.outcome.result = .error fault) (hplace : fault.cause.isPlaceless = false) :
    fault.position = (origin :: around).findSome? Node.position? := by
  induction h generalizing fault with
  | @here call _ _ hasked =>
    obtain ⟨asked, found, hasks, hfound⟩ | ⟨cause, rfl⟩ := result_cases hfault
    · obtain ⟨value, hvalue⟩ := hasked asked hasks
      rw [hfound] at hvalue
      cases hvalue
    · obtain ⟨-, hposition⟩ := Fault.position_locate hplace
      rw [hposition, Option.none_or, List.findSome?_cons]
      cases call.node.position? <;> rfl
  | @inside call inner origin around hasks hinner ih =>
    obtain ⟨found, hfound⟩ := hinner.exists_fault
    obtain rfl : fault = found.locate call.room call.node :=
      Except.error.inj (hfault.symm.trans (hasks.result_eq hfound))
    obtain ⟨hfoundPlace, hposition⟩ := Fault.position_locate hplace
    rw [hposition, ← List.cons_append, List.findSome?_append, ← ih hfound hfoundPlace,
      List.findSome?_singleton]

theorem Raised.exists_mem_preorder (h : Raised call origin around) (depth : Int) :
    ∃ level, (level, origin) ∈ call.node.preorder depth := by
  induction h generalizing depth with
  | here => exact ⟨depth, Node.mem_preorder_self depth _⟩
  | @inside call inner origin around hasks _ ih =>
    obtain ⟨level, hlevel⟩ := ih (depth + 1)
    have hmem := hasks.mem_children
    refine ⟨level, ?_⟩
    cases hnode : call.node with
    | rule label children position =>
      rw [hnode] at hmem
      rw [Node.preorder]
      exact List.mem_cons_of_mem _ (Node.preorder_subset_preorders hmem hlevel)
    | token | foreign =>
      rw [hnode] at hmem
      cases hmem

/-- A fault that has a position keeps it all the way out. -/
theorem result_of_reaches (h : Relation.ReflTransGen Asks call inner)
    (hfault : inner.outcome.result = .error fault) (hposition : fault.position.isSome) :
    call.outcome.result = .error fault := by
  induction h using Relation.ReflTransGen.head_induction_on with
  | refl => exact hfault
  | head hasks _ ih =>
    rw [hasks.result_eq ih]
    simp [Fault.locate, hposition]

end Call

theorem Cause.isPlaceless_iff (cause : Cause) :
    cause.isPlaceless ↔ cause.className ∈ ["NestingDepthError", "ValueError"] := by
  cases cause <;> simp [isPlaceless, className]

/-- A fault of evaluation comes from one node, whose own step fails while the evaluations it asks
for succeed.  It has the position of the first node from there outwards for which one is found; that
of a node is the own position of the first node in it that has one.  If all nodes have positions, it
is that of the origin, and in any case a position that was found inside is kept outside. -/
theorem evaluate_position {tree : Node} {env : Environment} {fault : Fault}
    (h : (evaluate tree env).result = .error fault)
    (hclass : fault.cause.className ∉ ["NestingDepthError", "ValueError"]) :
    let root : Call := ⟨some nestingLimit, env, tree⟩
    (∃ origin around, root.Raised origin around ∧
      (∀ other outside, root.Raised other outside → other = origin ∧ outside = around) ∧
      fault.position = (origin :: around).findSome? Node.position? ∧
      ((∀ entry ∈ tree.nodes, entry.2.ownPosition?.isSome) →
        fault.position = origin.ownPosition?)) ∧
    (∀ inner found, Relation.ReflTransGen Call.Asks root inner →
      inner.outcome.result = .error found → found.position.isSome → found = fault) ∧
    ∀ node : Node, node.position? = (node.nodes.map Prod.snd).findSome? Node.ownPosition? := by
  intro root
  have hroot : root.outcome.result = .error fault := h
  have hplace : fault.cause.isPlaceless = false := by
    rw [← Bool.not_eq_true, Cause.isPlaceless_iff]
    exact hclass
  obtain ⟨origin, around, hraised⟩ := Call.exists_raised hroot
  have hposition := hraised.position_eq hroot hplace
  refine ⟨⟨origin, around, hraised, fun other outside => hraised.unique, hposition, ?_⟩, ?_,
    Node.position?_eq⟩
  · intro hall
    obtain ⟨level, hlevel⟩ := hraised.exists_mem_preorder 0
    rw [← Node.nodes_eq] at hlevel
    have hown : origin.ownPosition?.isSome := hall _ hlevel
    obtain ⟨place, hsome⟩ := Option.isSome_iff_exists.1 hown
    rw [hposition, List.findSome?_cons, Node.position?_of_own hown, hsome]
  · intro inner found hreaches hfound hsome
    have hresult := Call.result_of_reaches hreaches hfound hsome
    exact Except.error.inj (hresult.symm.trans hroot)

/-- A sum with a foreign leaf.  The only position in it is that of its first operand. -/
def foreignSum : Node :=
  .rule Rule.add.label
    [.token Terminal.string.label "\"a\"" (some ⟨1, some 5⟩), .token Terminal.plus.label "+" none,
      .foreign .absent] none

theorem evaluate_foreignSum :
    (evaluate foreignSum {}).result = .error ⟨.unsupportedNode none, some ⟨1, some 5⟩⟩ ∧
      ∃ origin around, Call.Raised ⟨some nestingLimit, {}, foreignSum⟩ origin around ∧
        some ⟨1, some 5⟩ = (origin :: around).findSome? Node.position? := by
  have hfault : (evaluate foreignSum {}).result =
      .error ⟨.unsupportedNode none, some ⟨1, some 5⟩⟩ := rfl
  obtain ⟨⟨origin, around, hraised, -, hposition, -⟩, -, -⟩ :=
    evaluate_position hfault (by decide)
  exact ⟨hfault, origin, around, hraised, hposition⟩

end Reckon
