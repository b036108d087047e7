import Reckon.Scale
import Reckon.Text.Quoted

/-!
# Foreign values

Values of the host that are none of the language's own.  They can be bound and shown, but no
operator takes them.  Showing one can fail: the host does not write out an integer of too many
digits.
-/

namespace Reckon

/-- A value of the host: one of its integers, of any size, one of its texts, a truth value, or the
value that stands for none. -/
inductive Foreign where
  | integer (n : Int)
  | text (s : String)
  | truth (b : Bool)
  | absent
  deriving DecidableEq

namespace Foreign

/-- The host's name for the kind of value. -/
def kindName : Foreign → String
  | .integer _ => "int"
  | .text _ => "str"
  | .truth _ => "bool"
  | .absent => "NoneType"

/-- Whether the host shows the value. -/
def isShowable : Foreign → Bool
  | .integer n => n.natAbs < tenPow maxDigits
  | _ => true

/-- What the host says instead of showing a value. -/
def refusal : String :=
  "Exceeds the limit (4300 digits) for integer string conversion; " ++
    "use sys.set_int_max_str_digits() to increase the limit"

/-- The value as it is printed, if it is shown. -/
def display : Foreign → String
  | .integer n => n.repr
  | .text s => s
  | .truth true => "True"
  | .truth false => "False"
  | .absent => "None"

/-- The value as it is described in messages, if it is shown.  A text is quoted. -/
def description : Foreign → String
  | .text s => quoted s
  | f => f.display

end Foreign

end Reckon
