import Reckon.Command.Option
import Reckon.Decimal.Numeral
import Reckon.Engine
import Reckon.Text.Quoted

/-!
# Settings of the command

The sorted arguments are acted on from left to right.  The first operand is the source; what is left
over is reported at the end, unless something else was wrong or help was asked for before.  The value
`--` of an option is struck out, and leaves its setting without a value.
-/

namespace Reckon.Command

/-- What is shown: value and tree, or one of them. -/
inductive Mode where
  | valueAndTree
  | valueOnly
  | treeOnly
  deriving DecidableEq

/-- The settings of a run.  A setting is `none` once its value was struck out. -/
structure Settings where
  source : Option String := none
  engineName : Option String
  mode : Mode := .valueAndTree
  tokenTypes : Bool := false
  indent : Option Nat := some 2
  logLevel : Option String
  deriving DecidableEq

/-- What is wrong with the arguments. -/
inductive UsageFault where
  | ambiguous (argument : String) (candidates : List Flag)
  | valueMissing (flag : Flag)
  | valueIgnored (flag : Flag) (value : String)
  | notAllowedWith (flag other : Flag)
  | invalidEngine (name : String)
  | notInteger (text : String)
  | indentTooSmall
  | unrecognized (arguments : List String)
  deriving DecidableEq

/-- A message about an option. -/
def Flag.complaint (flag : Flag) (text : String) : String :=
  "argument " ++ flag.display ++ ": " ++ text

/-- The wording of a fault. -/
def UsageFault.message : UsageFault → String
  | .ambiguous argument candidates =>
    "ambiguous option: " ++ argument ++ " could match " ++
      ", ".intercalate (candidates.map Flag.longName)
  | .valueMissing flag => flag.complaint "expected one argument"
  | .valueIgnored flag value => flag.complaint ("ignored explicit argument " ++ quoted value)
  | .notAllowedWith flag other => flag.complaint ("not allowed with argument " ++ other.display)
  | .invalidEngine name =>
    Flag.parser.complaint ("invalid choice: " ++ quoted name ++ " (choose from " ++
      ", ".intercalate (Engine.all.map fun engine => quoted engine.name) ++ ")")
  | .notInteger text => Flag.indent.complaint ("expected an integer, got " ++ quoted text)
  | .indentTooSmall => Flag.indent.complaint "indent must be at least 1"
  | .unrecognized arguments => "unrecognized arguments: " ++ " ".intercalate arguments

/-- What the arguments ask for. -/
inductive Request where
  | help
  | run (settings : Settings)
  deriving DecidableEq

/-- The value of an option that is struck out. -/
def struckValue : String := "--"

/-- A value, or none if it is struck out. -/
def keepValue (value : String) : Option String := if value = struckValue then none else some value

/-- The engine that a value names. -/
def readEngine (value : String) : Except UsageFault String :=
  if (Engine.ofName? value).isSome then .ok value else .error (.invalidEngine value)

/-- The indentation that a value gives. -/
def readIndent (value : String) : Except UsageFault Nat :=
  match Numeral.toInt? value with
  | none => .error (.notInteger value)
  | some n => if n < 1 then .error .indentTooSmall else .ok n.toNat

/-- The settings with an option's value. -/
def Settings.setValue (settings : Settings) (flag : Flag) (value : String) :
    Except UsageFault Settings :=
  match flag with
  | .parser => return { settings with engineName := ← (keepValue value).mapM readEngine }
  | .indent => return { settings with indent := ← (keepValue value).mapM readIndent }
  | .logLevel => .ok { settings with logLevel := keepValue value }
  | _ => .error (.valueIgnored flag value)

/-- The settings with an option that takes no value. -/
def Settings.setFlag (settings : Settings) (flag : Flag) : Except UsageFault Settings :=
  match flag with
  | .noTree =>
    if settings.mode = .treeOnly then .error (.notAllowedWith .noTree .treeOnly)
    else .ok { settings with mode := .valueOnly }
  | .treeOnly =>
    if settings.mode = .valueOnly then .error (.notAllowedWith .treeOnly .noTree)
    else .ok { settings with mode := .treeOnly }
  | .tokenTypes => .ok { settings with tokenTypes := true }
  | _ => .error (.valueMissing flag)

/-- The state of acting on arguments. -/
structure Progress where
  settings : Settings
  /-- Arguments left over, the last first. -/
  extras : List String := []
  /-- Whether the last argument was taken as the source. -/
  sourceLast : Bool := false

namespace Progress

/-- The progress after an operand. -/
def takeOperand (progress : Progress) (text : String) : Progress :=
  if progress.settings.source.isNone then
    { progress with settings.source := some text, sourceLast := true }
  else { progress with extras := text :: progress.extras, sourceLast := false }

/-- The progress after an argument that nothing takes. -/
def leave (progress : Progress) (text : String) : Progress :=
  { progress with extras := text :: progress.extras, sourceLast := false }

/-- The progress with new settings after an option. -/
def set (progress : Progress) (settings : Settings) : Progress :=
  { progress with settings, sourceLast := false }

/-- The request at the end of the arguments, given those behind `--` if it was there.  The mark
itself is left over if the source was taken before it and does not stand next to it. -/
def finish (progress : Progress) (behind : Option (List String)) : Except UsageFault Request :=
  let ended := match behind with
    | none => progress
    | some rest =>
      let marked :=
        if progress.settings.source.isNone || progress.sourceLast then progress
        else progress.leave "--"
      rest.foldl takeOperand marked
  if ended.extras.isEmpty then .ok (.run ended.settings)
  else .error (.unrecognized ended.extras.reverse)

/-- Act on sorted arguments. -/
def run (progress : Progress) (behind : Option (List String)) :
    List Word → Except UsageFault Request
  | [] => progress.finish behind
  | .operand text :: rest => (progress.takeOperand text).run behind rest
  | .unknown text :: rest => (progress.leave text).run behind rest
  | .cluster tail :: _ =>
    match clusterValue? tail with
    | some value => .error (.valueIgnored .help (.ofList value))
    | none => .ok .help
  | .option .help none :: _ => .ok .help
  | .option flag (some value) :: rest => do
    (progress.set (← progress.settings.setValue flag value)).run behind rest
  | .option flag none :: rest =>
    if flag.takesValue then
      match rest with
      | .operand value :: rest => do
        (progress.set (← progress.settings.setValue flag value)).run behind rest
      | _ => .error (.valueMissing flag)
    else do
      (progress.set (← progress.settings.setFlag flag)).run behind rest

end Progress

/-- The variables around the command that give defaults. -/
structure Surroundings where
  engineName : Option String := none
  logLevel : Option String := none

/-- The settings before any argument. -/
def Surroundings.settings (surroundings : Surroundings) : Settings :=
  { engineName := some (surroundings.engineName.getD Engine.lalr.name)
    logLevel := some (surroundings.logLevel.getD "WARNING") }

/-- What the arguments ask for. -/
def request (surroundings : Surroundings) (arguments : List String) : Except UsageFault Request :=
  match sortArguments arguments with
  | .error ⟨argument, candidates⟩ => .error (.ambiguous argument candidates)
  | .ok (words, behind) => Progress.run { settings := surroundings.settings } behind words

end Reckon.Command
