import Reckon.Environment
import Reckon.Literal
import Reckon.Operator

/-!
# The steps of evaluation

A rule node is evaluated in three steps: its shape is checked, some of its children are evaluated in
order, and then the node's own step is taken on their values.  This module has the first and the
last step and the choice of children; a token has only its own step.
-/

namespace Reckon

/-- The frames that a rule node takes while its children are evaluated. -/
def Rule.frames : Rule → Nat
  | .add | .mul | .pow => 5
  | _ => 4

/-- The frames that a node takes, given its label.  A label that names no rule is soon found out. -/
def labelFrames (label : String) : Nat := ((Rule.ofLabel? label).map Rule.frames).getD 2

@[simp] theorem labelFrames_label (rule : Rule) : labelFrames rule.label = rule.frames := by
  rw [labelFrames, Rule.ofLabel?_label]
  rfl

/-- The room inside a rule node, if there is any left for it. -/
def Room.enter? (room : Room) (label : String) : Option Room := room.take? (labelFrames label)

/-- The value of a token. -/
def tokenValue (bindings : Bindings) (kind text : String) : Except Cause Value :=
  if kind = Terminal.number.label then Literal.number text
  else if kind = Terminal.string.label then .ok (.text (Literal.string text))
  else if kind = Terminal.name.label then
    match bindings.get? text with
    | some value => .ok value
    | none => .error (.undefinedName text)
  else .error (.unhandledToken kind text)

namespace Node

/-- Whether a node is a name token. -/
def isName : Node → Bool
  | .token kind _ _ => kind == Terminal.name.label
  | _ => false

/-- Whether a node is a minus token. -/
def isMinus : Node → Bool
  | .token kind _ _ => kind == Terminal.minus.label
  | _ => false

/-- Why a node cannot stand in the place of an operator.  The fault describes the node, unless
something is in the way of that. -/
def misplaced (room : Room) (node : Node) : Cause :=
  match node.obstacle? room with
  | none => .operatorNotToken node
  | some .depth => .nestedTooDeeply
  | some .value => .unshowable node

/-- The text of a node in the place of an operator. -/
def operatorText (room : Room) : Node → Except Cause String
  | .token _ text _ => .ok text
  | node => .error (node.misplaced room)

end Node

/-- A value that is to be printed. -/
def Value.shown : Value → Except Cause Value
  | .foreign f => if f.isShowable then .ok (.foreign f) else .error (.unshowable (.foreign f))
  | value => .ok value

theorem Value.shown_cases (value : Value) :
    value.shown = .ok value ∨
      ∃ f, f.isShowable = false ∧ value = .foreign f ∧
        value.shown = .error (.unshowable (.foreign f)) := by
  cases value with
  | foreign f =>
    rw [shown]
    split
    · exact .inl rfl
    · exact .inr ⟨f, Bool.eq_false_iff.2 ‹_›, rfl, rfl⟩
  | number | text | nil => exact .inl rfl

namespace Rule

/-- The shape a rule node must have before anything in it is evaluated. -/
def check : Rule → List Node → Except Cause Unit
  | .assign, [target, _] => if target.isName then .ok () else .error .targetNotName
  | .assign, _ => .error .malformedAssignment
  | .print, [_] => .ok ()
  | .print, _ => .error .malformedPrint
  | .compare, [_, _, _] => .ok ()
  | .compare, _ => .error .malformedComparison
  | .neg, [_, _] => .ok ()
  | .neg, children => .error (.negationArity children.length)
  | _, _ => .ok ()

/-- Whether the child at an index is evaluated. -/
def evaluates : Rule → Nat → Bool
  | .program, _ => true
  | .assign, i => i == 1
  | .print, i => i == 0
  | .neg, i => i == 1
  | _, i => i % 2 == 0

/-- The children between operands. -/
def operators : List Node → List Node
  | _ :: operator :: rest => operator :: operators rest
  | _ => []

/-- Operators applied from left to right. -/
def applyAll (first : Value) : List (String × Value) → Except Cause Value
  | [] => .ok first
  | (operator, second) :: rest =>
    match Operator.applyText operator first second with
    | .error cause => .error cause
    | .ok value => applyAll value rest

/-- Operands with operators between them. -/
def applyInfix (symbols : List String) : List Value → Except Cause Value
  | first :: rest =>
    if rest.length = symbols.length then applyAll first (symbols.zip rest)
    else .error .malformedInfix
  | [] => .error .malformedInfix

/-- The value of a rule node, given the values of its evaluated children. -/
def value (rule : Rule) (room : Room) (children : List Node) (values : List Value) :
    Except Cause Value :=
  match rule, children, values with
  | .program, _, values => .ok (values.getLast?.getD .nil)
  | .assign, _, [value] => .ok value
  | .assign, _, _ => .error .malformedAssignment
  | .print, _, [value] => value.shown
  | .print, _, _ => .error .malformedPrint
  | .compare, [_, operator, _], [a, b] => do
    return .ofBool (← Value.compare (← operator.operatorText room) a b)
  | .compare, _, _ => .error .malformedComparison
  | .neg, [operator, _], [a] =>
    if operator.isMinus then a.negate
    else do throw (.unsupportedUnary (← operator.operatorText room))
  | .neg, children, _ => .error (.negationArity children.length)
  | .add, children, values | .mul, children, values | .pow, children, values => do
    applyInfix (← (operators children).mapM (Node.operatorText room)) values

/-- What a rule node does to the environment once it has its value. -/
def effect (rule : Rule) (children : List Node) (value : Value) (env : Environment) :
    Environment :=
  match rule, children with
  | .assign, [.token _ name _, _] => env.define name value
  | .print, _ => env.writeLine value.display
  | _, _ => env

end Rule

end Reckon
