import Reckon.Proofs.Finiteness
import Reckon.Proofs.Lockstep
import Reckon.Proofs.Nesting
import Reckon.Proofs.Sequence

/-!
# Chains of operators

Operands with operators between them can stand in one flat node, or in binary nodes that each take
in one more operand.  The flat node evaluates all its operands before it applies an operator, and
the nested ones take turns, so that they may fail in different places.  A success is the same for
both: it is a run (`Link.Run`) in which each operand finds the environment that the one in front of
it has left.  The main result is `Node.eval_flat_iff_nested`.
-/

namespace Reckon

namespace Outcome

variable {α β : Type} {outcome : Outcome α}

theorem andThen_eq_ok {next : α → Environment → Outcome β} {b : β} {after : Environment} :
    outcome.andThen next = ⟨.ok b, after⟩ ↔
      ∃ a env, outcome = ⟨.ok a, env⟩ ∧ next a env = ⟨.ok b, after⟩ := by
  obtain ⟨result, env⟩ := outcome
  cases result with
  | ok a => simp
  | error fault => simp

theorem locate_eq_ok {room : Room} {node : Node} {a : α} {after : Environment} :
    outcome.locate room node = ⟨.ok a, after⟩ ↔ outcome = ⟨.ok a, after⟩ := by
  obtain ⟨result, env⟩ := outcome
  cases result with
  | ok a => rfl
  | error fault => simp [locate]

end Outcome

/-- A rule whose nodes have operators between their operands. -/
abbrev InfixRule := { rule : Rule // rule = .add ∨ rule = .mul ∨ rule = .pow }

/-- An operator token and the operand behind it, with the rule and the position of the binary node
that takes them in. -/
structure Link where
  kind : String
  symbol : String
  place : Option Position
  operand : Node
  rule : InfixRule
  position : Option Position

namespace Link

/-- The nodes of a link. -/
def nodes (link : Link) : List Node :=
  [.token link.kind link.symbol link.place, link.operand]

/-- The binary node that takes in a link. -/
def onto (left : Node) (link : Link) : Node :=
  .rule link.rule.1.label [left, .token link.kind link.symbol link.place, link.operand]
    link.position

/-- The links taken in one after another, from a value and an environment to others: an operand is
evaluated where the operand in front of it has left off, and its operator succeeds. -/
inductive Run (room : Room) : List Link → Value → Environment → Value → Environment → Prop
  | nil {value : Value} {env : Environment} : Run room [] value env value env
  | cons {link : Link} {links : List Link} {left right value last : Value}
      {env now after : Environment} (operand : link.operand.eval room env = ⟨.ok right, now⟩)
      (operator : Operator.applyText link.symbol left right = .ok value)
      (rest : Run room links value now last after) : Run room (link :: links) left env last after

namespace Run

variable {r s : Room} {links : List Link} {left value last : Value} {env now after : Environment}

theorem append {more : List Link} (h : Run r links left env value now)
    (hmore : Run r more value now last after) : Run r (links ++ more) left env last after := by
  induction h with
  | nil => exact hmore
  | cons operand operator _ ih => exact .cons operand operator (ih hmore)

theorem of_within (hroom : r.Within s) (h : Run r links left env last after) :
    Run s links left env last after := by
  induction h with
  | nil => exact .nil
  | cons operand operator _ ih => exact .cons (Node.eval_of_within hroom operand) operator ih

/-- A run first goes over the operands and then, with their values, over the operators. -/
theorem iff_inOrder {room : Room} :
    Run room links left env last after ↔
      ∃ values, Outcome.inOrder (fun link => link.operand.eval room) links env =
          ⟨.ok values, after⟩ ∧
        Rule.applyAll left ((links.map symbol).zip values) = .ok last := by
  constructor
  · intro h
    induction h with
    | nil => exact ⟨[], rfl, rfl⟩
    | @cons link links left right value last env now after operand operator rest ih =>
      obtain ⟨values, hvalues, happly⟩ := ih
      refine ⟨right :: values, ?_, ?_⟩
      · rw [Outcome.inOrder, operand, Outcome.andThen_ok, hvalues, Outcome.map_ok]
      · rw [List.map_cons, List.zip_cons_cons, Rule.applyAll_cons, operator]
        exact happly
  · rintro ⟨values, hvalues, happly⟩
    induction links generalizing left env values with
    | nil =>
      cases hvalues
      cases happly
      exact .nil
    | cons link links ih =>
      rw [Outcome.inOrder, Outcome.andThen_eq_ok] at hvalues
      obtain ⟨right, now, operand, hrest⟩ := hvalues
      obtain ⟨rest, _, hrest, hcons⟩ := Outcome.andThen_eq_ok.1 hrest
      cases hcons
      rw [List.map_cons, List.zip_cons_cons, Rule.applyAll_cons] at happly
      obtain ⟨value, operator, happly⟩ := Rule.exists_of_bind_eq_ok happly
      exact .cons operand operator (ih rest hrest happly)

end Run

end Link

/-! ## The flat form -/

namespace InfixRule

variable (rule : InfixRule)

theorem check_eq (children : List Node) : rule.1.check children = .ok () := by
  obtain ⟨_, rfl | rfl | rfl⟩ := rule <;> rfl

theorem frames_eq : rule.1.frames = 5 := by
  obtain ⟨_, rfl | rfl | rfl⟩ := rule <;> rfl

theorem evaluates_iff (index : Nat) : rule.1.evaluates index ↔ index % 2 = 0 := by
  obtain ⟨_, rfl | rfl | rfl⟩ := rule <;> exact beq_iff_eq

theorem effect_eq (children : List Node) (value : Value) (env : Environment) :
    rule.1.effect children value env = env := by
  obtain ⟨_, rfl | rfl | rfl⟩ := rule <;> rfl

theorem operators_eq (first : Node) (links : List Link) :
    Rule.operators (first :: links.flatMap Link.nodes) =
      links.map fun link => .token link.kind link.symbol link.place := by
  induction links generalizing first with
  | nil => rfl
  | cons link links ih => exact congrArg _ (ih link.operand)

theorem value_eq (room : Room) (first : Node) (links : List Link) (values : List Value) :
    rule.1.value room (first :: links.flatMap Link.nodes) values =
      Rule.applyInfix (links.map Link.symbol) values := by
  have hsymbols : (Rule.operators (first :: links.flatMap Link.nodes)).mapM
      (Node.operatorText room) = .ok (links.map Link.symbol) := by
    rw [operators_eq, List.mapM_map]
    exact List.mapM_pure
  obtain ⟨_, rfl | rfl | rfl⟩ := rule <;> rw [Rule.value, hsymbols] <;> rfl

end InfixRule

namespace Node

/-- One node for a whole chain. -/
def flat (rule : InfixRule) (position : Option Position) (first : Node) (links : List Link) :
    Node :=
  .rule rule.1.label (first :: links.flatMap Link.nodes) position

/-- A binary node for each link of a chain, the later ones around the earlier. -/
def nested (first : Node) (links : List Link) : Node := links.foldl Link.onto first

theorem evalChildren_links (rule : InfixRule) (room : Room) (env : Environment) {index : Nat}
    (hindex : index % 2 = 1) (links : List Link) :
    evalChildren rule.1 room env index (links.flatMap Link.nodes) =
      Outcome.inOrder (fun link => link.operand.eval room) links env := by
  induction links generalizing env index with
  | nil =>
    rw [List.flatMap_nil, evalChildren]
    rfl
  | cons link links ih =>
    have hoperator : ¬ rule.1.evaluates index := by
      rw [rule.evaluates_iff]
      omega
    have hoperand : rule.1.evaluates (index + 1) := by
      rw [rule.evaluates_iff]
      omega
    rw [List.flatMap_cons]
    show evalChildren rule.1 room env index (_ :: link.operand :: links.flatMap Link.nodes) = _
    rw [evalChildren, if_neg hoperator, evalChildren, if_pos hoperand, Outcome.inOrder]
    congr 1
    funext value env
    rw [ih env (by omega)]
    rfl

theorem evalChildren_flat (rule : InfixRule) (room : Room) (env : Environment) (first : Node)
    (links : List Link) :
    evalChildren rule.1 room env 0 (first :: links.flatMap Link.nodes) =
      (first.eval room env).andThen fun left env =>
        (Outcome.inOrder (fun link => link.operand.eval room) links env).map (left :: ·) := by
  rw [evalChildren, if_pos ((rule.evaluates_iff 0).2 rfl)]
  congr 1
  funext left env
  rw [evalChildren_links rule room env (Nat.zero_add 1 ▸ rfl)]
  rfl

theorem finish_flat_eq_ok {rule : InfixRule} {room : Room} {first : Node} {links : List Link}
    {left value : Value} {values : List Value} {env after : Environment}
    (hlength : values.length = links.length) :
    rule.1.finish room (first :: links.flatMap Link.nodes) (left :: values) env =
        ⟨.ok value, after⟩ ↔
      Rule.applyAll left ((links.map Link.symbol).zip values) = .ok value ∧ env = after := by
  have hcount : values.length = (links.map Link.symbol).length := by
    rw [List.length_map, hlength]
  rw [Rule.finish, rule.value_eq, Rule.applyInfix, if_pos hcount]
  cases Rule.applyAll left ((links.map Link.symbol).zip values) with
  | ok found => simp [rule.effect_eq]
  | error cause => simp

/-- A flat chain succeeds by a run in the room inside its node. -/
theorem eval_flat_eq_ok {rule : InfixRule} {position : Option Position} {first : Node}
    {links : List Link} {room : Room} {env after : Environment} {value : Value} :
    (flat rule position first links).eval room env = ⟨.ok value, after⟩ ↔
      ∃ inner left now, room.take? 5 = some inner ∧ first.eval inner env = ⟨.ok left, now⟩ ∧
        Link.Run inner links left now value after := by
  rw [flat, eval_rule (rule.check_eq _), Room.enter?, labelFrames_label, rule.frames_eq]
  cases room.take? 5 with
  | none =>
    constructor
    · nofun
    · rintro ⟨inner, left, now, hinner, -⟩
      cases hinner
  | some inner =>
    simp only [Outcome.locate_eq_ok, evalChildren_flat, Outcome.andThen_assoc, Outcome.andThen_map,
      Outcome.andThen_eq_ok, Link.Run.iff_inOrder]
    constructor
    · rintro ⟨left, now, hfirst, values, last, hvalues, hfinish⟩
      have hlength := (Outcome.forall₂_of_inOrder hvalues).length_eq.symm
      obtain ⟨happly, rfl⟩ := (finish_flat_eq_ok hlength).1 hfinish
      exact ⟨inner, left, now, rfl, hfirst, values, hvalues, happly⟩
    · rintro ⟨_, left, now, hinner, hfirst, values, hvalues, happly⟩
      cases hinner
      have hlength := (Outcome.forall₂_of_inOrder hvalues).length_eq.symm
      exact ⟨left, now, hfirst, values, after, hvalues, (finish_flat_eq_ok hlength).2 ⟨happly, rfl⟩⟩

/-! ## The nested form -/

theorem onto_eq_flat (left : Node) (link : Link) :
    link.onto left = flat link.rule link.position left [link] := rfl

/-- A nested chain that succeeds does so by a run.  Its inner nodes have less room than the operands
of a flat chain, so that the run is one in the room of these too. -/
theorem exists_run_of_nested {first : Node} {link : Link} {links : List Link} {room : Room}
    {env after : Environment} {value : Value}
    (h : (nested first (link :: links)).eval room env = ⟨.ok value, after⟩) :
    ∃ inner left now, room.take? 5 = some inner ∧ first.eval inner env = ⟨.ok left, now⟩ ∧
      Link.Run inner (link :: links) left now value after := by
  -- the first link is taken in by the innermost node, so that the rest is a chain around that node
  induction links generalizing first link with
  | nil => exact eval_flat_eq_ok.1 h
  | cons next links ih =>
    obtain ⟨inner, left, now, hroom, hbinary, hrest⟩ := ih h
    rw [onto_eq_flat, eval_flat_eq_ok] at hbinary
    obtain ⟨innermost, start, before, hinner, hfirst, hlink⟩ := hbinary
    have hwithin := Room.Within.of_take? hinner
    exact ⟨inner, start, before, hroom, eval_of_within hwithin hfirst,
      (hlink.of_within hwithin).append hrest⟩

/-- Where there is no bound to the room, a nested chain succeeds by any run. -/
theorem eval_nested_of_run {first : Node} {links : List Link} {left value : Value}
    {env now after : Environment} (hfirst : first.eval none env = ⟨.ok left, now⟩)
    (h : Link.Run none links left now value after) :
    (nested first links).eval none env = ⟨.ok value, after⟩ := by
  induction h generalizing first with
  | nil => exact hfirst
  | @cons link links left right value last env' now after operand operator rest ih =>
    have hbinary : (link.onto first).eval none env = ⟨.ok value, now⟩ := by
      rw [onto_eq_flat, eval_flat_eq_ok]
      exact ⟨none, left, env', rfl, hfirst, .cons operand operator .nil⟩
    exact ih hbinary

/-- A flat chain succeeds if and only if the nested one does, with the same value and the same
environment, as long as there is room.  Where there is little, the flat chain succeeds whenever
the nested one does, and the nested one fails instead of succeeding only for lack of room. -/
theorem eval_flat_iff_nested (rule : InfixRule) (position : Option Position) (first : Node)
    (link : Link) (links : List Link) (env after : Environment) (value : Value) :
    ((flat rule position first (link :: links)).eval none env = ⟨.ok value, after⟩ ↔
      (nested first (link :: links)).eval none env = ⟨.ok value, after⟩) ∧
    ∀ room,
      ((nested first (link :: links)).eval room env = ⟨.ok value, after⟩ →
        (flat rule position first (link :: links)).eval room env = ⟨.ok value, after⟩) ∧
      ((flat rule position first (link :: links)).eval room env = ⟨.ok value, after⟩ →
        (nested first (link :: links)).eval room env = ⟨.ok value, after⟩ ∨
          ((nested first (link :: links)).eval room env).IsTooDeep) := by
  have hflat : ∀ {room}, (nested first (link :: links)).eval room env = ⟨.ok value, after⟩ →
      (flat rule position first (link :: links)).eval room env = ⟨.ok value, after⟩ :=
    fun h => eval_flat_eq_ok.2 (exists_run_of_nested h)
  have hnested : (flat rule position first (link :: links)).eval none env = ⟨.ok value, after⟩ →
      (nested first (link :: links)).eval none env = ⟨.ok value, after⟩ := by
    intro h
    obtain ⟨inner, left, now, hinner, hfirst, hrun⟩ := eval_flat_eq_ok.1 h
    cases hinner
    exact eval_nested_of_run hfirst hrun
  refine ⟨⟨hnested, hflat⟩, fun room => ⟨hflat, fun h => ?_⟩⟩
  have hunbound := hnested (eval_of_within (Room.within_none room) h)
  rcases eval_upToDepth (Room.within_none room) env (nested first (link :: links)) with hdeep | heq
  · exact .inr hdeep
  · exact .inl (heq.trans hunbound)

end Node

end Reckon
