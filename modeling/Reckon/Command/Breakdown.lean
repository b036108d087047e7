import Reckon.Command.Option
import Reckon.Interpretation
import Reckon.Tree.Outline

/-!
# Breakdowns

The failures that the command does not handle.  They end it at once, without an exit code of its
own, and what has been written before stays.
-/

namespace Reckon.Command

/-- A failure that the command does not handle. -/
inductive Breakdown where
  /-- No engine has the name that the surroundings give. -/
  | unknownEngine (name : String)
  /-- An option whose value was struck out is needed. -/
  | struckOut (flag : Flag)
  /-- The path of the source has a null character. -/
  | nullInPath
  /-- The tree cannot be listed. -/
  | outline (fault : Outline.Fault)

namespace Breakdown

/-- The wording of a breakdown. -/
def message : Breakdown → String
  | .unknownEngine name => (Failure.unknownEngine name).message
  | .struckOut .logLevel => "'list' object has no attribute 'upper'"
  | .struckOut .parser => "unhashable type: 'list'"
  | .struckOut _ => "can't multiply sequence by non-int of type 'list'"
  | .nullInPath => "embedded null byte"
  | .outline fault => fault.message

/-- The class of a breakdown. -/
def className : Breakdown → String
  | .unknownEngine name => (Failure.unknownEngine name).className
  | .struckOut .logLevel => "AttributeError"
  | .struckOut _ => "TypeError"
  | .nullInPath => "ValueError"
  | .outline fault => fault.className

end Breakdown

end Reckon.Command
