import Reckon.Proofs.Depth
import Reckon.Proofs.Lockstep
import Reckon.Proofs.Origin

/-!
# The classes of faults

Every step of an evaluation fails with one of the evaluator's own errors, whatever the tree, the
texts of its tokens and the values around, but for two (`Call.Throws`).  A negation that does not
have two children fails with an error of the host, and so does a node that is to show a value which
the host does not show: it prints the value, or it describes a node that stands in the place of an
operator and holds the value.  Such an error keeps its class and takes no position on the way out.
So the faults of an evaluation are its own errors just if it asks for no such node
(`evaluate_class`).
-/

namespace Reckon

/-- The classes of the evaluator's own errors. -/
def evalErrors : List String :=
  ["EvalError", "UndefinedVariableError", "DivisionByZeroError", "TypeMismatchError",
    "NumericRangeError", "NestingDepthError"]

namespace Cause

/-- A cause that does not lie in the number of a negation's children. -/
def Counted (cause : Cause) : Prop := ∀ count, cause ≠ .negationArity count

/-- A cause that does not lie in a value that is not shown. -/
def Shown (cause : Cause) : Prop := ∀ found, cause ≠ .unshowable found

/-- All other causes are the evaluator's own errors. -/
theorem className_mem_iff {cause : Cause} :
    cause.className ∈ evalErrors ↔ cause.Counted ∧ cause.Shown := by
  cases cause <;> simp [className, evalErrors, Counted, Shown]

theorem OfComputation.counted {cause : Cause} (h : cause.OfComputation) : cause.Counted := by
  rintro count rfl
  exact h

theorem OfComputation.shown {cause : Cause} (h : cause.OfComputation) : cause.Shown := by
  rintro found rfl
  exact h

theorem OfToken.className_mem {cause : Cause} (h : cause.OfToken) :
    cause.className ∈ evalErrors := by
  refine className_mem_iff.2 ⟨?_, ?_⟩ <;> rintro _ rfl <;> exact h

/-! ## The number of children -/

theorem counted_misplaced (room : Room) (node : Node) : (node.misplaced room).Counted := by
  intro count
  unfold Node.misplaced
  split <;> nofun

theorem counted_operatorText (room : Room) (node : Node) :
    Only Counted (node.operatorText room) := by
  cases node with
  | token kind text position => exact only_ok _ _
  | rule | foreign => exact only_error (counted_misplaced room _)

theorem OfDisplay.counted {cause : Cause} (h : cause.OfDisplay) : cause.Counted := by
  obtain ⟨f, rfl⟩ := h
  exact nofun

/-- The children of a negation are counted before any of them is evaluated. -/
theorem check_neg {children : List Node} (h : children.length ≠ 2) :
    Rule.neg.check children = .error (.negationArity children.length) := by
  rw [Rule.check]
  rintro operator operand rfl
  exact h rfl

theorem length_of_check_neg {children : List Node} (h : Rule.neg.check children = .ok ()) :
    children.length = 2 := by
  by_contra hcount
  cases (check_neg hcount).symm.trans h

theorem className_of_check {r : Rule} {children : List Node} (h : r = .neg → children.length = 2) :
    Only (·.className ∈ evalErrors) (r.check children) := by
  unfold Rule.check
  split
  case h_1 =>
    split_ifs
    · exact only_ok _ ()
    · exact only_error (by decide)
  case h_2 | h_4 | h_6 => exact only_error (by decide)
  case h_3 | h_5 | h_7 | h_9 => exact only_ok _ ()
  case h_8 hshape =>
    obtain ⟨operator, operand, htwo⟩ := List.length_eq_two.1 (h rfl)
    exact absurd htwo (hshape operator operand)

/-- With the children counted, the own step of a rule does not fail over their number. -/
theorem counted_value {r : Rule} (room : Room) {children : List Node} {values : List Value}
    (h : r = .neg → children.length = 2 ∧ values.length = 1) :
    Only Counted (r.value room children values) := by
  unfold Rule.value
  split
  case h_1 | h_2 => exact only_ok _ _
  case h_4 => exact (only_shown _).mono fun _ => OfDisplay.counted
  case h_3 | h_5 | h_7 => exact only_error nofun
  case h_6 =>
    refine (counted_operatorText room _).bind fun symbol => ?_
    refine ((only_compare symbol _ _).mono fun _ => OfComputation.counted).bind fun result => ?_
    exact only_ok _ _
  case h_8 =>
    split_ifs
    · exact (only_negate _).mono fun _ => OfComputation.counted
    · exact (counted_operatorText room _).bind fun symbol => only_error nofun
  case h_9 hshape =>
    obtain ⟨hchildren, hvalues⟩ := h rfl
    obtain ⟨operator, operand, htwo⟩ := List.length_eq_two.1 hchildren
    obtain ⟨a, hone⟩ := List.length_eq_one_iff.1 hvalues
    exact absurd hone (hshape operator operand a htwo)
  case h_10 | h_11 | h_12 =>
    refine (Only.mapM fun operator _ => counted_operatorText room operator).bind fun symbols => ?_
    exact (only_applyInfix symbols _).mono fun _ => OfComputation.counted

end Cause

/-! ## Values that are not shown -/

namespace Node

variable {room : Room} {node found : Node} {cause : Cause}

theorem misplaced_eq_unshowable_iff :
    node.misplaced room = .unshowable found ↔
      node = found ∧ found.obstacle? room = some .value := by
  unfold misplaced
  split
  · rename_i hnone
    exact ⟨nofun, fun ⟨hnode, hvalue⟩ => by simp [← hnode, hnone] at hvalue⟩
  · rename_i hdepth
    exact ⟨nofun, fun ⟨hnode, hvalue⟩ => by simp [← hnode, hdepth] at hvalue⟩
  · rename_i hvalue
    constructor
    · rintro ⟨⟩
      exact ⟨rfl, hvalue⟩
    · rintro ⟨rfl, -⟩
      rfl

theorem operatorText_eq_error_iff :
    node.operatorText room = .error cause ↔ node.isToken = false ∧ cause = node.misplaced room := by
  cases node with
  | token kind text position => exact ⟨nofun, nofun⟩
  | rule | foreign =>
    constructor
    · rintro ⟨⟩
      exact ⟨rfl, rfl⟩
    · rintro ⟨-, rfl⟩
      rfl

/-- Of the nodes in the places of operators, the first that is no token is at fault. -/
theorem mapM_operatorText_eq_error_iff {nodes : List Node} :
    nodes.mapM (operatorText room) = .error cause ↔
      ∃ found, nodes.find? (!·.isToken) = some found ∧ cause = found.misplaced room := by
  induction nodes with
  | nil => exact ⟨nofun, nofun⟩
  | cons node rest ih =>
    rw [List.mapM_cons, List.find?_cons]
    cases htext : node.operatorText room with
    | error found =>
      obtain ⟨hnode, rfl⟩ := operatorText_eq_error_iff.1 htext
      rw [hnode]
      constructor
      · rintro ⟨⟩
        exact ⟨node, rfl, rfl⟩
      · rintro ⟨_, ⟨⟩, rfl⟩
        rfl
    | ok text =>
      have hnode : node.isToken = true := by
        cases node with
        | token => rfl
        | rule | foreign => cases htext
      rw [hnode]
      refine Iff.trans ?_ ih
      cases rest.mapM (operatorText room) with
      | error found => exact Iff.rfl
      | ok texts => exact ⟨nofun, nofun⟩

end Node

namespace Cause

variable {α β : Type} {x : Except Cause α} {next : α → Except Cause β} {found : Node}

theorem not_unshowable (h : Only Shown x) : x ≠ .error (.unshowable found) :=
  fun hx => h _ hx found rfl

theorem bind_eq_unshowable_iff (hnext : ∀ a, Only Shown (next a)) :
    x >>= next = .error (.unshowable found) ↔ x = .error (.unshowable found) := by
  cases x with
  | ok a => exact iff_of_false (not_unshowable (hnext a)) nofun
  | error cause =>
    constructor <;> rintro ⟨⟩ <;> rfl

end Cause

namespace Rule

variable {r : Rule} {room : Room} {children : List Node} {values : List Value} {found : Node}

/-- The children of a rule node that stand in the places of operators. -/
def symbols : Rule → List Node → List Node
  | .neg, children => children.take 1
  | .compare, children | .add, children | .mul, children | .pow, children => operators children
  | _, _ => []

/-- The own step of a rule node meets a value that the host does not show.  It prints the value, or
it describes a node with the value: the first in the place of an operator that is no token. -/
def Withholds (r : Rule) (room : Room) (children : List Node) (values : List Value)
    (found : Node) : Prop :=
  (r = .print ∧ ∃ f, values = [.foreign f] ∧ f.isShowable = false ∧ found = .foreign f) ∨
    (r.symbols children).find? (!·.isToken) = some found ∧ found.obstacle? room = some .value

theorem mapM_operatorText_eq_unshowable_iff {nodes : List Node} :
    nodes.mapM (Node.operatorText room) = .error (.unshowable found) ↔
      nodes.find? (!·.isToken) = some found ∧ found.obstacle? room = some .value := by
  rw [Node.mapM_operatorText_eq_error_iff]
  constructor
  · rintro ⟨node, hfind, hcause⟩
    obtain ⟨rfl, hvalue⟩ := Node.misplaced_eq_unshowable_iff.1 hcause.symm
    exact ⟨hfind, hvalue⟩
  · rintro ⟨hfind, hvalue⟩
    exact ⟨found, hfind, (Node.misplaced_eq_unshowable_iff.2 ⟨rfl, hvalue⟩).symm⟩

theorem operatorText_eq_unshowable_iff {node : Node} :
    node.operatorText room = .error (.unshowable found) ↔
      [node].find? (!·.isToken) = some found ∧ found.obstacle? room = some .value := by
  rw [← mapM_operatorText_eq_unshowable_iff, List.mapM_cons, Cause.bind_eq_unshowable_iff]
  intro text
  exact Cause.only_ok _ _

theorem shown_eq_unshowable_iff {value : Value} :
    value.shown = .error (.unshowable found) ↔
      ∃ f, [value] = [.foreign f] ∧ f.isShowable = false ∧ found = .foreign f := by
  constructor
  · intro h
    obtain hshown | ⟨f, hhidden, rfl, hrefused⟩ := value.shown_cases
    · cases hshown.symm.trans h
    · cases hrefused.symm.trans h
      exact ⟨f, rfl, hhidden, rfl⟩
  · rintro ⟨f, ⟨⟩, hhidden, rfl⟩
    rw [Value.shown, if_neg (by rw [hhidden]; decide)]

theorem withholds_iff_of_ne_print (h : r ≠ .print) :
    r.Withholds room children values found ↔
      (r.symbols children).find? (!·.isToken) = some found ∧ found.obstacle? room = some .value :=
  or_iff_right fun hprint => h hprint.1

theorem value_compare_iff {first operator second : Node} {a b : Value} :
    Rule.compare.value room [first, operator, second] [a, b] = .error (.unshowable found) ↔
      Rule.compare.Withholds room [first, operator, second] [a, b] found := by
  rw [withholds_iff_of_ne_print (by decide), value, Cause.bind_eq_unshowable_iff]
  · exact operatorText_eq_unshowable_iff
  · intro symbol
    exact ((Cause.only_compare symbol a b).mono fun _ => Cause.OfComputation.shown).bind
      fun result => Cause.only_ok _ _

theorem value_neg_iff {operator operand : Node} {a : Value} :
    Rule.neg.value room [operator, operand] [a] = .error (.unshowable found) ↔
      Rule.neg.Withholds room [operator, operand] [a] found := by
  rw [withholds_iff_of_ne_print (by decide), value]
  split
  · rename_i hminus
    have htoken : (!operator.isToken) = false := by
      cases operator with
      | token => rfl
      | rule | foreign => cases hminus
    have hshown : Cause.Only Cause.Shown a.negate :=
      (Cause.only_negate a).mono fun _ => Cause.OfComputation.shown
    refine iff_of_false (Cause.not_unshowable hshown) fun h => ?_
    rw [symbols, List.take_succ_cons, List.find?_cons, htoken] at h
    cases h.1
  · rw [Cause.bind_eq_unshowable_iff]
    · exact operatorText_eq_unshowable_iff
    · intro symbol
      refine Cause.only_error fun found h => ?_
      cases h

/-- The own step of a rule, behind the check of its shape, ends over a value that is not shown just
if it meets one. -/
theorem value_eq_unshowable_iff (hcheck : r.check children = .ok ())
    (hvalues : values.length = (Node.evaluated r 0 children).length) :
    r.value room children values = .error (.unshowable found) ↔
      r.Withholds room children values found := by
  cases r with
  | program => exact ⟨nofun, fun h => h.elim nofun nofun⟩
  | assign =>
    rw [withholds_iff_of_ne_print (by decide)]
    match values with
    | [] | [_] | _ :: _ :: _ => exact ⟨nofun, nofun⟩
  | print =>
    obtain ⟨operand, rfl⟩ := exists_of_check_print hcheck
    obtain ⟨value, rfl⟩ := List.length_eq_one_iff.1 hvalues
    refine shown_eq_unshowable_iff.trans ⟨fun h => .inl ⟨rfl, h⟩, ?_⟩
    exact fun h => h.elim And.right nofun
  | compare =>
    obtain ⟨first, operator, second, rfl⟩ := exists_of_check_compare hcheck
    obtain ⟨a, b, rfl⟩ := List.length_eq_two.1 hvalues
    exact value_compare_iff
  | neg =>
    obtain ⟨operator, operand, rfl⟩ := List.length_eq_two.1 (Cause.length_of_check_neg hcheck)
    obtain ⟨a, rfl⟩ := List.length_eq_one_iff.1 hvalues
    exact value_neg_iff
  | add | mul | pow =>
    rw [withholds_iff_of_ne_print (by decide), value, Cause.bind_eq_unshowable_iff]
    · exact mapM_operatorText_eq_unshowable_iff
    · intro symbols
      exact (Cause.only_applyInfix symbols values).mono fun _ => Cause.OfComputation.shown

end Rule

/-! ## Evaluations -/

/-- Children that succeed have a value for each that is evaluated. -/
theorem Node.length_of_evalChildren {r : Rule} {room : Room} {env : Environment} {index : Nat}
    {children : List Node} {values : List Value}
    (h : (evalChildren r room env index children).result = .ok values) :
    values.length = (evaluated r index children).length := by
  induction children generalizing index env values with
  | nil =>
    rw [evalChildren] at h
    cases h
    rfl
  | cons node rest ih =>
    rw [evalChildren] at h
    rw [evaluated]
    split at h
    · rename_i hchosen
      obtain ⟨value, -, hrest⟩ := Outcome.result_andThen_eq_ok.1 h
      obtain ⟨others, hothers, hcons⟩ := Outcome.result_andThen_eq_ok.1 hrest
      cases hcons
      rw [if_pos hchosen, List.length_cons, List.length_cons, ih hothers]
    · rename_i hchosen
      rw [if_neg hchosen]
      exact ih h

namespace Call

variable {call inner : Call} {fault : Fault} {cause : Cause} {count : Nat} {found : Node}

/-- An evaluation of a negation that does not have two children. -/
def Miscounts (call : Call) (count : Nat) : Prop :=
  ∃ children position, call.node = .rule Rule.neg.label children position ∧
    children.length = count ∧ count ≠ 2 ∧ (call.room.enter? Rule.neg.label).isSome

/-- An evaluation of a rule node whose children have their values and whose own step then meets a
value that is not shown. -/
def Withholds (call : Call) (found : Node) : Prop :=
  ∃ (r : Rule) (children : List Node) (position : Option Position) (room : Room)
    (values : List Value) (now : Environment),
    call.node = .rule r.label children position ∧ call.room.enter? r.label = some room ∧
      r.check children = .ok () ∧
      Node.evalChildren r room call.env 0 children = ⟨.ok values, now⟩ ∧
      r.Withholds room children values found

/-- An evaluation that ends, in its own step, with an error of the host. -/
def Throws (call : Call) : Cause → Prop
  | .negationArity count => call.Miscounts count
  | .unshowable found => call.Withholds found
  | _ => False

theorem Miscounts.result_eq (h : call.Miscounts count) :
    call.outcome.result = .error ⟨.negationArity count, none⟩ := by
  obtain ⟨children, position, hnode, rfl, hcount, hroom⟩ := h
  obtain ⟨room, hroom⟩ := Option.isSome_iff_exists.1 hroom
  rw [outcome, hnode, Node.eval, hroom, Rule.ofLabel?_label]
  simp only [Cause.check_neg hcount]
  rfl

theorem Withholds.result_eq (h : call.Withholds found) :
    call.outcome.result = .error ⟨.unshowable found, none⟩ := by
  obtain ⟨r, children, position, room, values, now, hnode, henter, hcheck, hchildren, hmeets⟩ := h
  have hvalue : r.value room children values = .error (.unshowable found) :=
    (Rule.value_eq_unshowable_iff hcheck
      (Node.length_of_evalChildren (congrArg Outcome.result hchildren))).2 hmeets
  rw [outcome_of_check hnode henter hcheck, hchildren, Outcome.andThen_ok, Rule.finish, hvalue]
  rfl

theorem Throws.result_eq (h : call.Throws cause) :
    call.outcome.result = .error ⟨cause, none⟩ := by
  cases cause <;> first | exact Miscounts.result_eq h | exact Withholds.result_eq h | cases h

theorem Throws.isPlaceless (h : call.Throws cause) : cause.isPlaceless := by
  cases cause <;> first | rfl | cases h

/-- A fault that is placed stays one of the evaluator's own errors. -/
theorem className_locate {room : Room} {node : Node} (h : fault.cause.className ∈ evalErrors) :
    (fault.locate room node).cause.className ∈ evalErrors := by
  obtain hcause | hcause := fault.cause_locate room node
  · rwa [hcause]
  · rw [hcause]
    decide

theorem className_of_locate {outcome : Outcome Value} {room : Room} {node : Node}
    (h : ∀ fault, outcome.result = .error fault → fault.cause.className ∈ evalErrors)
    (hfault : (outcome.locate room node).result = .error fault) :
    fault.cause.className ∈ evalErrors := by
  obtain ⟨_ | value, env⟩ := outcome
  · cases hfault
    exact className_locate (h _ rfl)
  · cases hfault

/-- Behind the check of its shape, a rule node whose children succeed fails with an own error,
unless it meets a value that is not shown. -/
theorem class_of_check {room : Room} {r : Rule} {children : List Node}
    {position : Option Position} (hnode : call.node = .rule r.label children position)
    (henter : call.room.enter? r.label = some room) (hcheck : r.check children = .ok ())
    (hfault : call.outcome.result = .error fault)
    (hasked : ∀ inner, Asks call inner → ∃ value, inner.outcome.result = .ok value) :
    fault.cause.className ∈ evalErrors ∨ ∃ found, call.Withholds found := by
  cases hchildren : Node.evalChildren r room call.env 0 children with
  | mk result now =>
    cases result with
    | error failure =>
      obtain ⟨before, child, after, values, last, rfl, hchosen, hbefore, hchild⟩ :=
        Node.exists_of_evalChildren_error (congrArg Outcome.result hchildren)
      rw [Nat.zero_add] at hchosen
      obtain ⟨value, hvalue⟩ :=
        hasked ⟨room, last, child⟩ (.child hnode henter hcheck hchosen hbefore)
      cases hchild.symm.trans hvalue
    | ok values =>
      have hlength := Node.length_of_evalChildren (congrArg Outcome.result hchildren)
      by_cases hmeets : ∃ found, r.Withholds room children values found
      · obtain ⟨found, hmeets⟩ := hmeets
        exact .inr ⟨found, r, children, position, room, values, now, hnode, henter, hcheck,
          hchildren, hmeets⟩
      refine .inl (className_of_locate (fun failure hfailure => ?_)
        (outcome_of_check hnode henter hcheck ▸ hfault))
      have hcounted : Cause.Only Cause.Counted (r.value room children values) := by
        refine Cause.counted_value room ?_
        rintro rfl
        have htwo := Cause.length_of_check_neg hcheck
        obtain ⟨operator, operand, rfl⟩ := List.length_eq_two.1 htwo
        exact ⟨rfl, hlength⟩
      rw [hchildren, Outcome.andThen_ok, Rule.finish] at hfailure
      cases hvalue : r.value room children values with
      | ok value =>
        rw [hvalue] at hfailure
        cases hfailure
      | error cause =>
        rw [hvalue] at hfailure
        cases hfailure
        refine Cause.className_mem_iff.2 ⟨hcounted cause hvalue, ?_⟩
        rintro found rfl
        exact hmeets ⟨found, (Rule.value_eq_unshowable_iff hcheck hlength).1 hvalue⟩

/-- A fault that arises at a node is one of the evaluator's own errors, unless the node ends with
an error of the host. -/
theorem class_of_own (hfault : call.outcome.result = .error fault)
    (hasked : ∀ inner, Asks call inner → ∃ value, inner.outcome.result = .ok value) :
    fault.cause.className ∈ evalErrors ∨ ∃ cause, call.Throws cause := by
  obtain ⟨room, env, node⟩ := call
  cases node with
  | foreign value =>
    cases hfault
    exact .inl (by decide)
  | token kind text position =>
    rw [outcome, Node.eval] at hfault
    refine .inl (className_of_locate (fun found hfound => ?_) hfault)
    cases hvalue : tokenValue env.bindings kind text with
    | ok value =>
      rw [hvalue] at hfound
      cases hfound
    | error cause =>
      rw [hvalue] at hfound
      cases hfound
      exact (Cause.only_tokenValue env.bindings kind text cause hvalue).className_mem
  | rule label children position =>
    cases henter : room.enter? label with
    | none =>
      rw [outcome, Node.eval, henter] at hfault
      cases hfault
      exact .inl (by decide)
    | some inner =>
      cases hrule : Rule.ofLabel? label with
      | none =>
        rw [outcome, Node.eval, henter, hrule] at hfault
        refine .inl (className_of_locate (fun found hfound => ?_) hfault)
        cases hfound
        simp [Cause.className, evalErrors]
      | some r =>
        obtain rfl := Rule.label_of_ofLabel? hrule
        by_cases hneg : r = .neg ∧ children.length ≠ 2
        · obtain ⟨rfl, hcount⟩ := hneg
          exact .inr ⟨.negationArity children.length, children, position, rfl, rfl, hcount,
            by rw [henter]; rfl⟩
        · cases hcheck : r.check children with
          | ok =>
            obtain hclass | ⟨found, hmeets⟩ := class_of_check rfl henter hcheck hfault hasked
            · exact .inl hclass
            · exact .inr ⟨.unshowable found, hmeets⟩
          | error cause =>
            have hown : Cause.Only (·.className ∈ evalErrors) (r.check children) :=
              Cause.className_of_check fun hr => not_not.1 fun hcount => hneg ⟨hr, hcount⟩
            rw [outcome, Node.eval, henter, hrule] at hfault
            simp only [hcheck] at hfault
            refine .inl (className_of_locate (fun found hfound => ?_) hfault)
            cases hfound
            exact hown cause hcheck

/-- An error of the host reaches the outside as it is. -/
theorem result_of_throws (h : Relation.ReflTransGen Asks call inner) (hinner : inner.Throws cause) :
    call.outcome.result = .error ⟨cause, none⟩ := by
  induction h using Relation.ReflTransGen.head_induction_on with
  | refl => exact hinner.result_eq
  | head hasks _ ih =>
    rw [hasks.result_eq ih, Fault.locate, if_pos (by rw [hinner.isPlaceless, Bool.true_or])]

theorem class_cases (hfault : call.outcome.result = .error fault) :
    fault.cause.className ∈ evalErrors ∨
      ∃ inner cause, Relation.ReflTransGen Asks call inner ∧ inner.Throws cause := by
  obtain ⟨origin, around, hraised⟩ := exists_raised hfault
  -- from the node at which the evaluation fails outwards
  induction hraised generalizing fault with
  | @here call _ _ hasked =>
    obtain hclass | ⟨cause, hthrows⟩ := class_of_own hfault hasked
    · exact .inl hclass
    · exact .inr ⟨call, cause, .refl, hthrows⟩
  | @inside call inner _ _ hasks hinner ih =>
    obtain ⟨found, hfound⟩ := hinner.exists_fault
    obtain rfl : fault = found.locate call.room call.node :=
      Except.error.inj (hfault.symm.trans (hasks.result_eq hfound))
    obtain hclass | ⟨last, cause, hreaches, hthrows⟩ := ih hfound
    · exact .inl (className_locate hclass)
    · exact .inr ⟨last, cause, hreaches.head hasks, hthrows⟩

/-- An evaluation ends with a cause that is not the evaluator's own just if it comes to a node that
does. -/
theorem result_eq_iff_throws (hcause : cause.className ∉ evalErrors) :
    call.outcome.result = .error ⟨cause, none⟩ ↔
      ∃ inner, Relation.ReflTransGen Asks call inner ∧ inner.Throws cause := by
  constructor
  · intro hfault
    obtain hclass | ⟨inner, found, hreaches, hthrows⟩ := class_cases hfault
    · exact absurd hclass hcause
    · have hfound := result_of_throws hreaches hthrows
      rw [hfault] at hfound
      cases hfound
      exact ⟨inner, hreaches, hthrows⟩
  · rintro ⟨inner, hreaches, hthrows⟩
    exact result_of_throws hreaches hthrows

end Call

/-- An evaluation gives a value or fails with one of the evaluator's own errors, unless it asks for
a negation that does not have two children or comes to show a value that the host does not show.  It
fails with that error of the host then, without a position. -/
theorem evaluate_class (tree : Node) (env : Environment) :
    ((∃ value, (evaluate tree env).result = .ok value) ∨
      (∃ fault, (evaluate tree env).result = .error fault ∧ fault.cause.className ∈ evalErrors) ∨
      (∃ count, (evaluate tree env).result = .error ⟨.negationArity count, none⟩) ∨
      ∃ found, (evaluate tree env).result = .error ⟨.unshowable found, none⟩) ∧
    (∀ count, (evaluate tree env).result = .error ⟨.negationArity count, none⟩ ↔
      ∃ call : Call, Relation.ReflTransGen Call.Asks ⟨some nestingLimit, env, tree⟩ call ∧
        call.Miscounts count) ∧
    ∀ found, (evaluate tree env).result = .error ⟨.unshowable found, none⟩ ↔
      ∃ call : Call, Relation.ReflTransGen Call.Asks ⟨some nestingLimit, env, tree⟩ call ∧
        call.Withholds found := by
  let root : Call := ⟨some nestingLimit, env, tree⟩
  have hroot : evaluate tree env = root.outcome := rfl
  rw [hroot]
  refine ⟨?_, fun count => Call.result_eq_iff_throws (by simp [Cause.className, evalErrors]),
    fun found => Call.result_eq_iff_throws (by simp [Cause.className, evalErrors])⟩
  cases hresult : root.outcome.result with
  | ok value => exact .inl ⟨value, rfl⟩
  | error fault =>
    obtain hclass | ⟨inner, cause, hreaches, hthrows⟩ := Call.class_cases hresult
    · exact .inr (.inl ⟨fault, rfl, hclass⟩)
    · have hfault := hresult.symm.trans (Call.result_of_throws hreaches hthrows)
      cases cause with
      | negationArity count => exact .inr (.inr (.inl ⟨count, hfault⟩))
      | unshowable found => exact .inr (.inr (.inr ⟨found, hfault⟩))
      | _ => cases hthrows

/-- A negation that lacks its operator. -/
def bareNegation : Node :=
  .rule Rule.neg.label [.token Terminal.number.label "1" none] none

/-- The evaluator's own errors are not all that an evaluation can fail with. -/
theorem not_forall_evalErrors :
    ¬ ∀ (tree : Node) (env : Environment) (fault : Fault),
      (evaluate tree env).result = .error fault → fault.cause.className ∈ evalErrors := by
  intro h
  have hfault : (evaluate bareNegation {}).result = .error ⟨.negationArity 1, none⟩ := rfl
  exact absurd (h bareNegation {} _ hfault) (by decide)

/-- A name that is printed. -/
def printedName : Node := .rule Rule.print.label [.token Terminal.name.label "x" none] none

/-- An integer of more than 4300 digits cannot be printed. -/
theorem evaluate_printedName {n : Int} (h : tenPow maxDigits ≤ n.natAbs) :
    (evaluate printedName (({} : Environment).define "x" (.foreign (.integer n)))).result =
      .error ⟨.unshowable (.foreign (.integer n)), none⟩ := by
  let env := ({} : Environment).define "x" (.foreign (.integer n))
  have hhidden : (Foreign.integer n).isShowable = false := by
    rw [Foreign.isShowable, decide_eq_false_iff_not, Nat.not_lt]
    exact h
  have hwithholds : Call.Withholds ⟨some nestingLimit, env, printedName⟩ (.foreign (.integer n)) :=
    ⟨.print, _, _, _, [.foreign (.integer n)], env, rfl, rfl, rfl, rfl,
      .inl ⟨rfl, .integer n, rfl, hhidden, rfl⟩⟩
  exact hwithholds.result_eq

end Reckon
