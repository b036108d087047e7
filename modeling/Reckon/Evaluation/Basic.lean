import Reckon.Evaluation.Step

/-!
# Evaluation

`Node.eval` evaluates a tree in an environment.  It gives the value or the fault, together with the
environment as it is then: what was bound and written before a fault stays.  A fault takes the
position of the innermost node around it for which one is found.

Every rule node takes room on the stack (`Rule.frames`), so that trees can be nested too deeply to
be evaluated.
-/

namespace Reckon

/-- The result of a computation and the environment after it. -/
structure Outcome (α : Type) where
  result : Except Fault α
  env : Environment

namespace Outcome

/-- A result that leaves the environment alone. -/
def ofExcept {α : Type} (env : Environment) : Except Cause α → Outcome α
  | .ok a => ⟨.ok a, env⟩
  | .error cause => ⟨.error ⟨cause, none⟩, env⟩

/-- Go on after a success. -/
def andThen {α β : Type} (outcome : Outcome α) (next : α → Environment → Outcome β) : Outcome β :=
  match outcome with
  | ⟨.ok a, env⟩ => next a env
  | ⟨.error fault, env⟩ => ⟨.error fault, env⟩

/-- The outcome with its fault placed at a node. -/
def locate {α : Type} (room : Room) (node : Node) : Outcome α → Outcome α
  | ⟨.ok a, env⟩ => ⟨.ok a, env⟩
  | ⟨.error fault, env⟩ => ⟨.error (fault.locate room node), env⟩

end Outcome

/-- The last step of a rule node. -/
def Rule.finish (rule : Rule) (room : Room) (children : List Node) (values : List Value)
    (env : Environment) : Outcome Value :=
  match rule.value room children values with
  | .ok value => ⟨.ok value, rule.effect children value env⟩
  | .error cause => ⟨.error ⟨cause, none⟩, env⟩

namespace Node

mutual

/-- Evaluate a tree. -/
def eval (room : Room) (env : Environment) : Node → Outcome Value
  | .foreign _ => .ofExcept env (.error (.unsupportedNode none))
  | .token kind text position =>
    (Outcome.ofExcept env (tokenValue env.bindings kind text)).locate room
      (.token kind text position)
  | .rule label children position =>
    match room.enter? label with
    | none => .ofExcept env (.error .nestedTooDeeply)
    | some inner =>
      Outcome.locate room (.rule label children position) <|
        match Rule.ofLabel? label with
        | none => .ofExcept env (.error (.unsupportedNode (some label)))
        | some r =>
          (Outcome.ofExcept env (r.check children)).andThen fun _ env =>
            (evalChildren r inner env 0 children).andThen fun values env =>
              r.finish inner children values env

/-- Evaluate, in order, those of a node's children from an index on that its rule evaluates. -/
def evalChildren (r : Rule) (room : Room) (env : Environment) (index : Nat) :
    List Node → Outcome (List Value)
  | [] => ⟨.ok [], env⟩
  | node :: rest =>
    if r.evaluates index then
      (node.eval room env).andThen fun value env =>
        (evalChildren r room env (index + 1) rest).andThen fun values env =>
          ⟨.ok (value :: values), env⟩
    else evalChildren r room env (index + 1) rest

end

end Node

/-- The frames that an evaluation may take.  The rest of the stack's thousand are left to what is
around it. -/
def nestingLimit : Nat := 990

/-- Evaluate a tree within the nesting limit. -/
def evaluate (tree : Node) (env : Environment) : Outcome Value :=
  tree.eval (some nestingLimit) env

end Reckon
