import Reckon.Program.Reading
import Reckon.Token.Scan

/-!
# Programs

`parse` reads a source text into its tree.  The first problem in the text is the one reported: a
token that cannot continue a program, a character where no token starts, or an end that comes too
early.
-/

namespace Reckon

/-- Why a text is not a program. -/
inductive ParseFault where
  | unexpectedToken (token : Token)
  | unexpectedCharacter (c : Char) (mark : Mark)
  | unexpectedEnd (mark : Option Mark)
  deriving DecidableEq

namespace ParseFault

/-- The place of a fault. -/
def mark? : ParseFault → Option Mark
  | .unexpectedToken token => some token.mark
  | .unexpectedCharacter _ mark => some mark
  | .unexpectedEnd mark => mark

/-- What was found, without its place. -/
def summary : ParseFault → String
  | .unexpectedToken token => "Unexpected token " ++ quoted token.text
  | .unexpectedCharacter c _ => "Unexpected character " ++ quoted (String.singleton c)
  | .unexpectedEnd _ => "Unexpected end of input"

/-- The wording of a fault. -/
def message (fault : ParseFault) : String :=
  match fault.mark? with
  | none => fault.summary
  | some mark =>
    fault.summary ++ " at line " ++ mark.line.repr ++ ", col " ++ mark.column.repr

end ParseFault

/-- The place that an engine reports for an early end: the start of the last token, or none. -/
def Engine.endMark? (engine : Engine) (tokens : List Token) : Option Mark :=
  match engine with
  | .lalr => tokens.getLast?.map Token.mark
  | .earley => none

/-- The program of a scanned text. -/
def Scan.parse (engine : Engine) (scan : Scan) : Except ParseFault Node :=
  match Reading.run {} scan.tokens, scan.stuck with
  | .error token, _ => .error (.unexpectedToken token)
  | .ok _, some (c, mark) => .error (.unexpectedCharacter c mark)
  | .ok reading, none =>
    match reading.finish? with
    | some node => .ok node
    | none => .error (.unexpectedEnd (engine.endMark? scan.tokens))

/-- The program of a source text. -/
def parse (engine : Engine) (source : String) : Except ParseFault Node :=
  (Scan.ofText engine source).parse engine

end Reckon
