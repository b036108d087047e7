import Reckon.Program.Frame

/-!
# Reading a program

A program is read one token at a time.  `Reading.step?` gives the state after a token, and nothing
if the token cannot continue any program; `Reading.finish?` gives the tree if the tokens read so
far are a whole program.
-/

namespace Reckon

/-- What stands in front of the expression of a statement. -/
inductive Head where
  | print (keyword : Token)
  /-- Names being assigned to, the last one first. -/
  | assign (targets : List Token)

/-- The statement with the given expression. -/
def Head.close : Head → Operand → Operand
  | .print keyword, x => .ofRule .print [x.node] keyword.mark
  | .assign targets, x =>
    targets.foldl (fun x name => .ofRule .assign [name.leaf, x.node] name.mark) x

/-- How far the current statement has been read. -/
inductive Phase where
  /-- Nothing yet. -/
  | fresh
  /-- Names and equals signs: another name or the expression follows. -/
  | assigned (targets : List Token)
  /-- A name that is either assigned to next or starts the expression. -/
  | named (targets : List Token) (name : Token)
  /-- Inside the expression, where an operand is due. -/
  | operand (head : Head) (outer : List (Frame × Mark)) (frame : Frame)
  /-- Inside the expression, behind an operand. -/
  | operator (head : Head) (outer : List (Frame × Mark)) (frame : Frame) (last : Operand)

namespace Phase

/-- The phase after a token where an operand is due. -/
def takeOperand? (head : Head) (outer : List (Frame × Mark)) (frame : Frame) (token : Token) :
    Option Phase :=
  match token.kind with
  | .number | .string | .name => some (.operator head outer frame (.ofToken token))
  | .minus => some (.operand head outer { frame with tight := .neg token :: frame.tight })
  | .lparen => some (.operand head ((frame, token.mark) :: outer) {})
  | _ => none

/-- The phase after a token behind an operand. -/
def takeOperator? (head : Head) (outer : List (Frame × Mark)) (frame : Frame) (last : Operand)
    (token : Token) : Option Phase :=
  match token.kind, outer with
  | .rparen, (inner, opening) :: outer =>
    some (.operator head outer inner ((frame.close last).enclose opening))
  | .rparen, [] => none
  | _, outer => (frame.join? last token).map (.operand head outer)

/-- The phase after a token other than a separator. -/
def step? (phase : Phase) (token : Token) : Option Phase :=
  match phase with
  | .fresh =>
    match token.kind with
    | .print => some (.operand (.print token) [] {})
    | .name => some (.named [] token)
    | _ => takeOperand? (.assign []) [] {} token
  | .assigned targets =>
    match token.kind with
    | .name => some (.named targets token)
    | _ => takeOperand? (.assign targets) [] {} token
  | .named targets name =>
    match token.kind with
    | .equals => some (.assigned (name :: targets))
    | _ => takeOperator? (.assign targets) [] {} (.ofToken name) token
  | .operand head outer frame => takeOperand? head outer frame token
  | .operator head outer frame last => takeOperator? head outer frame last token

/-- The statement, if it is whole. -/
def statement? : Phase → Option Operand
  | .named targets name => some ((Head.assign targets).close (.ofToken name))
  | .operator head [] frame last => some (head.close (frame.close last))
  | _ => none

end Phase

/-- The state of reading: the statements before the current one, the last first, the mark where
the program starts, and the current statement. -/
structure Reading where
  statements : List Node := []
  start : Option Mark := none
  phase : Phase := .fresh

namespace Reading

/-- The state after a whole statement. -/
def push (reading : Reading) (statement : Operand) : Reading :=
  ⟨statement.node :: reading.statements, reading.start <|> some statement.start, .fresh⟩

/-- The state at the end of the current statement, if it is whole or has not begun. -/
def endStatement? (reading : Reading) : Option Reading :=
  match reading.phase with
  | .fresh => some reading
  | phase => phase.statement?.map reading.push

/-- The state after a token. -/
def step? (reading : Reading) (token : Token) : Option Reading :=
  match token.kind with
  | .separator =>
    reading.endStatement?.map fun ended =>
      { ended with start := ended.start <|> some token.mark }
  | _ => (reading.phase.step? token).map fun phase => { reading with phase }

/-- The state after some tokens, or the first of them that cannot be read. -/
def run (reading : Reading) : List Token → Except Token Reading
  | [] => .ok reading
  | token :: rest =>
    match reading.step? token with
    | none => .error token
    | some next => next.run rest

/-- The tree of the program, if it is whole. -/
def finish? (reading : Reading) : Option Node :=
  reading.endStatement?.map fun ended =>
    .rule Rule.program.label ended.statements.reverse (ended.start.map Mark.position)

end Reading

end Reckon
