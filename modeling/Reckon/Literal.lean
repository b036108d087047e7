import Reckon.Decimal.Numeral
import Reckon.Fault

/-!
# Literals

What the text of a number token and of a string token stands for.
-/

namespace Reckon.Literal

/-- The number of a number token.  It has to be finite. -/
def number (literal : String) : Except Cause Value :=
  match Numeral.toBinary64? literal with
  | none => .error (.malformedNumber literal)
  | some x => if x.isFinite then .ok (.number x) else .error (.literalRange literal)

/-- The character that an escape stands for. -/
def escape? : Char → Option Char
  | 'n' => some '\n'
  | 't' => some '\t'
  | 'r' => some '\r'
  | '"' => some '"'
  | '\\' => some '\\'
  | _ => none

/-- The text with its escapes resolved.  An unknown escape keeps its backslash. -/
def unescape : List Char → List Char
  | '\\' :: c :: rest =>
    match escape? c with
    | some d => d :: unescape rest
    | none => '\\' :: c :: unescape rest
  | c :: rest => c :: unescape rest
  | [] => []

/-- The text between its outer quotes, if both are there. -/
def unquote (cs : List Char) : List Char :=
  if 2 ≤ cs.length ∧ cs.head? = some '"' ∧ cs.getLast? = some '"' then cs.tail.dropLast else cs

/-- The text of a string token. -/
def string (literal : String) : String := .ofList (unescape (unquote literal.toList))

end Reckon.Literal
