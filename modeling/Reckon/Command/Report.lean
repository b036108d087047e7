import Reckon.Command.Breakdown
import Reckon.Command.Log
import Reckon.Command.Settings
import Reckon.Command.Source
import Reckon.Command.Usage

/-!
# What the command writes

`report` carries out a request: it reads and parses the source, evaluates it and lists its tree as
the mode asks, and gives all that is written and how the command ends.  `memory` is the number of
characters that the host has memory for in an indentation.
-/

namespace Reckon.Command

/-- How the command ends: with an exit code, or by breaking down. -/
inductive Ending where
  | exit (code : Nat)
  | breakdown (breakdown : Breakdown)

/-- What the command writes, and how it ends. -/
structure Transcript where
  stdout : String := ""
  stderr : String := ""
  ending : Ending

/-- A command that ends with an exit code and a complaint. -/
def Transcript.complain (code : Nat) (complaint : String) : Transcript :=
  { stderr := complaint, ending := .exit code }

/-- Lines with a newline behind each. -/
def joinLines (lines : List String) : String := String.join (lines.map (· ++ "\n"))

/-- A command that breaks down before it has written anything. -/
def Transcript.broken (breakdown : Breakdown) : Transcript := { ending := .breakdown breakdown }

/-- The lines of a tree, set as the settings ask. -/
def treeLines (memory : Nat) (settings : Settings) (tree : Node) :
    Except Breakdown (List String) :=
  match settings.indent with
  | none => .error (.struckOut .indent)
  | some count =>
    Except.mapError .outline do
      let indent ← (repeat? memory " " count).mapError .margin
      Outline.lines ⟨indent, settings.tokenTypes, memory⟩ 0 tree

/-- List a tree behind what has been written. -/
def listTree (memory : Nat) (settings : Settings) (stdout stderr : String) (tree : Node) :
    Transcript :=
  let headed := stdout ++ "Parse tree:\n\n"
  match treeLines memory settings tree with
  | .error breakdown => ⟨headed, stderr, .breakdown breakdown⟩
  | .ok lines => ⟨headed ++ joinLines lines, stderr, .exit 0⟩

/-- The number of statements of a program. -/
def statementCount (tree : Node) : Nat := tree.children.length

/-- The command at a failure of parsing or evaluation. -/
def failed (log : String → String → String) (stdout stderr : String) (failure : Failure) :
    Transcript :=
  ⟨stdout,
    stderr ++ log "runner" ("run aborted: " ++ failure.className) ++
      "error: " ++ failure.message ++ "\n",
    .exit 1⟩

/-- Evaluate a program as the mode asks, and list its tree. -/
def reportTree (memory : Nat) (settings : Settings) (log : String → String → String)
    (stderr : String) (tree : Node) : Transcript :=
  match settings.mode with
  | .treeOnly => listTree memory settings "" stderr tree
  | mode =>
    match evaluateIn {} tree with
    | (.error failure, env) => failed log ("The result is:\n" ++ env.written) stderr failure
    | (.ok value, env) =>
      let shown := "The result is:\n" ++ env.written ++ value.display ++ "\n"
      let logged := stderr ++ log "evaluator"
        ("evaluation finished with " ++ env.bindings.size.repr ++ " binding(s)")
      if mode = .valueOnly then ⟨shown, logged, .exit 0⟩
      else listTree memory settings (shown ++ "\n") logged tree

/-- The engine of the settings. -/
def Settings.engine (settings : Settings) : Except Breakdown Engine :=
  match settings.engineName with
  | none => .error (.struckOut .parser)
  | some name =>
    match Engine.ofName? name with
    | none => .error (.unknownEngine name)
    | some engine => .ok engine

/-- Parse a source text and go on with its program. -/
def reportText (memory : Nat) (settings : Settings) (log : String → String → String)
    (text : String) : Transcript :=
  match settings.engine with
  | .error breakdown => .broken breakdown
  | .ok engine =>
    let building := log "parser" ("building " ++ engine.name ++ " parser from grammar.lark")
    match parse engine text with
    | .error fault => failed log "" building (.parse fault)
    | .ok tree =>
      reportTree memory settings log
        (building ++ log "parser" ("parsed " ++ (statementCount tree).repr ++ " statement(s)")) tree

/-- Read the bytes of a source and go on with its text. -/
def reportSource (memory : Nat) (settings : Settings) (log : String → String → String)
    (bytes : Except SourceFault (List UInt8)) : Transcript :=
  if settings.source.any (·.contains '\x00') then .broken .nullInPath
  else
    match bytes.bind sourceText with
    | .error fault =>
      .complain 1 ("error: cannot read " ++ settings.source.getD "None" ++ ": " ++
        fault.message ++ "\n")
    | .ok text => reportText memory settings log text

/-- Carry out a run on the bytes of its source. -/
def reportRun (memory : Nat) (settings : Settings) (bytes : Except SourceFault (List UInt8)) :
    Transcript :=
  match settings.logLevel with
  | none => .broken (.struckOut .logLevel)
  | some level =>
    match showsLog? level with
    | none => .complain 1 ("Unknown log level: " ++ level ++ "\n")
    | some showsLog =>
      reportSource memory settings (if showsLog then logLine else fun _ _ => "") bytes

/-- Carry out the command in a folder, with the given standard input. -/
def report (memory : Nat) (surroundings : Surroundings) (arguments : List String)
    (folder : Folder) (stdin : List UInt8) : Transcript :=
  match request surroundings arguments with
  | .error fault => .complain 2 (usageError fault.message)
  | .ok .help => { stdout := help, ending := .exit 0 }
  | .ok (.run settings) => reportRun memory settings (sourceBytes folder stdin settings.source)

end Reckon.Command
