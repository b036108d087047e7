import Reckon.Tree.Basic
import Reckon.Value

/-!
# Faults of evaluation

A fault is a cause and, once a failing node has been found that has one, a position.  Its message
is the wording of the cause followed by the position.
-/

namespace Reckon

/-- Why an evaluation fails. -/
inductive Cause where
  | undefinedName (name : String)
  | divisionByZero (operator : String)
  | kindMismatch (operator : String) (kinds : List Kind)
  | operatorRange (operator : String)
  | literalRange (literal : String)
  | nestedTooDeeply
  | malformedNumber (literal : String)
  | malformedAssignment
  | malformedPrint
  | malformedComparison
  | malformedInfix
  | targetNotName
  | operatorNotToken (found : Node)
  | unshowable (found : Node)
  | unknownOperator (operator : String)
  | unknownComparator (operator : String)
  | unsupportedUnary (operator : String)
  | unhandledToken (kind text : String)
  | unsupportedNode (label : Option String)
  | negationArity (count : Nat)

namespace Cause

/-- The wording of a cause. -/
def message : Cause → String
  | .undefinedName name => "Name '" ++ name ++ "' is not defined"
  | .divisionByZero operator => "Division by zero in '" ++ operator ++ "'"
  | .kindMismatch operator kinds =>
    "Operator '" ++ operator ++ "' does not support " ++ ", ".intercalate (kinds.map Kind.name)
  | .operatorRange operator =>
    "Operator '" ++ operator ++ "' produced a value outside the real number range"
  | .literalRange literal => "Number literal " ++ literal ++ " is outside the real number range"
  | .nestedTooDeeply => "Expression nested too deeply to evaluate"
  | .malformedNumber literal => "Malformed number literal " ++ quoted literal
  | .malformedAssignment => "Malformed assignment"
  | .malformedPrint => "Malformed print statement"
  | .malformedComparison => "Malformed comparison"
  | .malformedInfix => "Malformed infix expression"
  | .targetNotName => "Assignment target must be an identifier"
  | .operatorNotToken found => "Expected operator token, got " ++ found.description
  | .unshowable _ => Foreign.refusal
  | .unknownOperator operator => "Unknown operator " ++ operator
  | .unknownComparator operator => "Unknown comparator " ++ operator
  | .unsupportedUnary operator => "Unsupported unary op " ++ operator
  | .unhandledToken kind text => "Unhandled token " ++ kind ++ ":" ++ text
  | .unsupportedNode none => "Unsupported node type: None"
  | .unsupportedNode (some label) => "Unsupported node type: " ++ quoted label
  | .negationArity count =>
    if count < 2 then "not enough values to unpack (expected 2, got " ++ count.repr ++ ")"
    else "too many values to unpack (expected 2)"

/-- The class that a cause is logged under. -/
def className : Cause → String
  | .undefinedName _ => "UndefinedVariableError"
  | .divisionByZero _ => "DivisionByZeroError"
  | .kindMismatch .. => "TypeMismatchError"
  | .operatorRange _ | .literalRange _ => "NumericRangeError"
  | .nestedTooDeeply => "NestingDepthError"
  | .negationArity _ | .unshowable _ => "ValueError"
  | _ => "EvalError"

/-- Causes that are never tied to a place in the tree. -/
def isPlaceless : Cause → Bool
  | .nestedTooDeeply | .negationArity _ | .unshowable _ => true
  | _ => false

end Cause

/-- The failure of an evaluation. -/
structure Fault where
  cause : Cause
  position : Option Position := none

namespace Fault

/-- The fault placed at a node, unless it has a position already or its cause has no place.  The
position of the node is searched for, and where there is no room for that the fault is lost. -/
def locate (room : Room) (node : Node) (fault : Fault) : Fault :=
  if fault.cause.isPlaceless || fault.position.isSome then fault
  else if room.holds node.reach then { fault with position := node.position? }
  else ⟨.nestedTooDeeply, none⟩

/-- The wording of a fault. -/
def message (fault : Fault) : String :=
  match fault.position with
  | none => fault.cause.message
  | some ⟨line, none⟩ => fault.cause.message ++ " (line " ++ line.repr ++ ")"
  | some ⟨line, some column⟩ =>
    fault.cause.message ++ " (line " ++ line.repr ++ ", col " ++ column.repr ++ ")"

end Fault

end Reckon
