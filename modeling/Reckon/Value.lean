import Reckon.Decimal.Layout
import Reckon.Foreign

/-!
# Values

What expressions evaluate to: numbers, texts and nil, besides foreign values handed in from
outside.  `display` is the text that printing writes, `written` the form used in listings.
-/

namespace Reckon

/-- A kind of value. -/
inductive Kind where
  | number
  | text
  | nil
  | foreign (name : String)
  deriving DecidableEq

/-- The name of a kind. -/
def Kind.name : Kind → String
  | .number => "number"
  | .text => "text"
  | .nil => "nil"
  | .foreign name => name

/-- A value. -/
inductive Value where
  | number (x : Binary64)
  | text (s : String)
  | nil
  | foreign (f : Foreign)
  deriving DecidableEq

namespace Value

/-- The kind of a value. -/
def kind : Value → Kind
  | .number _ => .number
  | .text _ => .text
  | .nil => .nil
  | .foreign f => .foreign f.kindName

/-- The text that printing a value writes. -/
def display : Value → String
  | .number x => x.display
  | .text s => s
  | .nil => "nil"
  | .foreign f => f.display

/-- A value in listings: texts stand between double quotes, with nothing escaped. -/
def written : Value → String
  | .number x => x.display
  | .text s => "\"" ++ s ++ "\""
  | .nil => "nil"
  | .foreign f => f.description

/-- One for true and zero for false. -/
def ofBool (b : Bool) : Value := .number (if b then .one else .zero false)

/-- Equality of values.  Values of different kinds differ, and a foreign value equals nothing. -/
def equal : Value → Value → Bool
  | .number x, .number y => x.equal y
  | .text s, .text t => s == t
  | .nil, .nil => true
  | _, _ => false

end Value

end Reckon
