import Reckon.Evaluation.Basic
import Reckon.Program.Parse

/-!
# Interpretation

From an engine's name and a source text to a value: the engine is looked up, the text is parsed and
the program is evaluated.  Each of the three can fail.
-/

namespace Reckon

/-- Why a text was not interpreted. -/
inductive Failure where
  | unknownEngine (name : String)
  | parse (fault : ParseFault)
  | eval (fault : Fault)

namespace Failure

/-- The wording of a failure. -/
def message : Failure → String
  | .unknownEngine name =>
    "unknown parser kind " ++ quoted name ++ "; expected one of " ++
      ", ".intercalate (Engine.all.map Engine.name)
  | .parse fault => fault.message
  | .eval fault => fault.message

/-- The class that a failure is logged under. -/
def className : Failure → String
  | .unknownEngine _ => "ValueError"
  | .parse _ => "ParseError"
  | .eval fault => fault.cause.className

end Failure

/-- The program of a source text, read by the engine of a name. -/
def parseNamed (engineName source : String) : Except Failure Node :=
  match Engine.ofName? engineName with
  | none => .error (.unknownEngine engineName)
  | some engine =>
    match parse engine source with
    | .ok tree => .ok tree
    | .error fault => .error (.parse fault)

/-- Evaluate a tree, with failures as those of an interpretation. -/
def evaluateIn (env : Environment) (tree : Node) : Except Failure Value × Environment :=
  match evaluate tree env with
  | ⟨.ok value, env⟩ => (.ok value, env)
  | ⟨.error fault, env⟩ => (.error (.eval fault), env)

/-- Interpret a source text in an environment. -/
def interpret (engineName source : String) (env : Environment) :
    Except Failure Value × Environment :=
  match parseNamed engineName source with
  | .error failure => (.error failure, env)
  | .ok tree => evaluateIn env tree

end Reckon
