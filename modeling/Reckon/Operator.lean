import Reckon.Binary64.Arithmetic
import Reckon.Binary64.Power
import Reckon.Fault

/-!
# Operators

Arithmetic and comparison of values.  Operators are given by their text, since a tree built by hand
may hold any.  Arithmetic never yields an infinity or the undefined number: such a result is a
fault of the operator.
-/

namespace Reckon

/-- An arithmetic operator. -/
inductive Operator where
  | add
  | sub
  | mul
  | div
  | mod
  | pow
  deriving DecidableEq

namespace Operator

/-- The text of an operator. -/
def symbol : Operator → String
  | .add => "+"
  | .sub => "-"
  | .mul => "*"
  | .div => "/"
  | .mod => "%"
  | .pow => "^"

/-- The operator of a text. -/
def ofSymbol? : String → Option Operator
  | "+" => some .add
  | "-" => some .sub
  | "*" => some .mul
  | "/" => some .div
  | "%" => some .mod
  | "^" => some .pow
  | _ => none

/-- The operator on numbers, before its result is checked. -/
def onNumbers : Operator → Binary64 → Binary64 → Binary64
  | .add => .add
  | .sub => .sub
  | .mul => .mul
  | .div => .div
  | .mod => .mod
  | .pow => .pow

/-- Whether the operator on these numbers divides by zero. -/
def dividesByZero : Operator → Binary64 → Binary64 → Bool
  | .div, _, y | .mod, _, y => y.isZero
  | .pow, x, y => x.isZero && y.less (.zero false)
  | _, _, _ => false

/-- The operator on values: two texts can be joined, else both must be numbers. -/
def apply (op : Operator) : Value → Value → Except Cause Value
  | .number x, .number y =>
    if op.dividesByZero x y then .error (.divisionByZero op.symbol)
    else
      let z := op.onNumbers x y
      if z.isFinite then .ok (.number z) else .error (.operatorRange op.symbol)
  | .text s, .text t =>
    if op = .add then .ok (.text (s ++ t)) else .error (.kindMismatch op.symbol [.text, .text])
  | a, b => .error (.kindMismatch op.symbol [a.kind, b.kind])

/-- The operator given by a text. -/
def applyText (symbol : String) (a b : Value) : Except Cause Value :=
  match ofSymbol? symbol with
  | none => .error (.unknownOperator symbol)
  | some op => op.apply a b

end Operator

/-- An ordering operator. -/
inductive Comparator where
  | less
  | lessEqual
  | greater
  | greaterEqual
  deriving DecidableEq

namespace Comparator

/-- The comparator of a text. -/
def ofSymbol? : String → Option Comparator
  | "<" => some .less
  | "<=" => some .lessEqual
  | ">" => some .greater
  | ">=" => some .greaterEqual
  | _ => none

/-- The comparator on numbers. -/
def onNumbers : Comparator → Binary64 → Binary64 → Bool
  | .less, x, y => x.less y
  | .lessEqual, x, y => x.lessEqual y
  | .greater, x, y => y.less x
  | .greaterEqual, x, y => y.lessEqual x

/-- The comparator on texts, which are ordered by code points. -/
def onTexts : Comparator → String → String → Bool
  | .less, s, t => s < t
  | .lessEqual, s, t => s < t || s == t
  | .greater, s, t => t < s
  | .greaterEqual, s, t => t < s || s == t

/-- The comparator given by a text, on values of one ordered kind. -/
def applyText (symbol : String) (onOrdered : Comparator → Bool) : Except Cause Bool :=
  match ofSymbol? symbol with
  | none => .error (.unknownComparator symbol)
  | some c => .ok (onOrdered c)

end Comparator

/-- The comparison given by a text.  Any two values can be equal or not; order is for two numbers
or two texts. -/
def Value.compare (symbol : String) (a b : Value) : Except Cause Bool :=
  if symbol = "==" then .ok (a.equal b)
  else if symbol = "!=" then .ok (!a.equal b)
  else
    match a, b with
    | .number x, .number y => Comparator.applyText symbol (·.onNumbers x y)
    | .text s, .text t => Comparator.applyText symbol (·.onTexts s t)
    | _, _ => .error (.kindMismatch symbol [a.kind, b.kind])

/-- The negative of a number. -/
def Value.negate : Value → Except Cause Value
  | .number x => .ok (.number x.neg)
  | a => .error (.kindMismatch "-" [a.kind])

end Reckon
