import Reckon.Interpretation

/-!
# Sessions

A session keeps one environment over many steps.  What is written goes to the current sink; an
evaluation may switch to another sink, which stays current afterwards.  Each step reports its answer
and the text that it wrote to every sink named so far.
-/

namespace Reckon

/-- One step of a session. -/
inductive Step where
  | eval (engineName source : String) (sink : Option String)
  | define (name : String) (value : Value)
  | get (name : String)
  | has (name : String)
  | write (line : String)
  | reset

/-- What a step answers. -/
inductive Answer where
  | value (v : Value)
  | has (bound : Bool)
  | done
  | failed (failure : Failure)

/-- The sink of a new environment. -/
def mainSink : String := "main"

/-- The bindings, the current sink, and every sink named so far. -/
structure Session where
  bindings : Bindings := {}
  sink : String := mainSink
  sinks : List String := [mainSink]

namespace Session

/-- The session with a sink made known. -/
def addSink (session : Session) (sink : String) : Session :=
  if session.sinks.contains sink then session
  else { session with sinks := sink :: session.sinks }

/-- The session with an evaluation's sink made known, if it names one. -/
def addSink? (session : Session) : Option String → Session
  | none => session
  | some sink => session.addSink sink

/-- Take a step: the answer, the text written to the current sink, and the session after it. -/
def step (session : Session) : Step → Answer × String × Session
  | .eval engineName source sink =>
    let session := session.addSink? sink
    match parseNamed engineName source with
    | .error failure => (.failed failure, "", session)
    | .ok tree =>
      let (result, env) := evaluateIn ⟨session.bindings, ""⟩ tree
      let answer := match result with
        | .ok value => Answer.value value
        | .error failure => .failed failure
      (answer, env.written,
        { session with bindings := env.bindings, sink := sink.getD session.sink })
  | .define name value =>
    (.done, "", { session with bindings := session.bindings.define name value })
  | .get name =>
    match session.bindings.get? name with
    | some value => (.value value, "", session)
    | none => (.failed (.eval ⟨.undefinedName name, none⟩), "", session)
  | .has name => (.has (session.bindings.contains name), "", session)
  | .write line => (.done, line ++ "\n", session)
  | .reset => (.done, "", { session with bindings := {}, sink := mainSink })

/-- Every sink named so far, in order, with the text if it is the current one. -/
def sinkTexts (session : Session) (written : String) : List (String × String) :=
  (session.sinks.mergeSort fun a b => !decide (b < a)).map fun sink =>
    (sink, if sink = session.sink then written else "")

end Session

/-- What is seen after a step. -/
structure StepReport where
  answer : Answer
  bindings : Bindings
  sinks : List (String × String)

/-- The reports of a session's steps. -/
def Session.run (session : Session) : List Step → List StepReport
  | [] => []
  | step :: rest =>
    let (answer, written, next) := session.step step
    ⟨answer, next.bindings, next.sinkTexts written⟩ :: next.run rest

end Reckon
