import Reckon.Engine
import Reckon.Token.Basic
import Reckon.Token.Lexeme

/-!
# Scanning

A source text is cut into pieces from the front.  Skipped pieces leave no trace but the marks, and
scanning stops at the first character where no piece starts.
-/

namespace Reckon

/-- The tokens of a text, and the character where scanning stopped before its end. -/
structure Scan where
  tokens : List Token
  stuck : Option (Char × Mark)
  deriving DecidableEq

namespace Scan

/-- Whether a token may be followed by the start of a statement. -/
def endsStatement (kind : Terminal) : Bool := kind == .separator

/-- The terminal of a piece: the word `print` may be the keyword. -/
def terminal (engine : Engine) (atStart : Bool) (kind : Terminal) (text : String) : Terminal :=
  if kind = .name ∧ text = "print" ∧ engine.readsKeyword atStart then .print else kind

/-- Scan a text that starts at a mark. -/
def ofChars (engine : Engine) (atStart : Bool) (mark : Mark) (cs : List Char) : Scan :=
  match _h : Lexeme.first? cs with
  | none => ⟨[], cs.head?.map fun c => (c, mark)⟩
  | some (none, n) => ofChars engine atStart (mark.after (cs.take n)) (cs.drop n)
  | some (some kind, n) =>
    let text := String.ofList (cs.take n)
    let token : Token := ⟨terminal engine atStart kind text, text, mark⟩
    let rest := ofChars engine (endsStatement kind) (mark.after (cs.take n)) (cs.drop n)
    ⟨token :: rest.tokens, rest.stuck⟩
termination_by cs.length
decreasing_by all_goals exact Lexeme.length_drop_lt _h

/-- Scan a source text. -/
def ofText (engine : Engine) (source : String) : Scan :=
  ofChars engine true {} source.toList

end Scan

end Reckon
