/-!
# Log levels

A log level is named in any case.  Only the two lowest show the lines that the command logs.
-/

namespace Reckon.Command

/-- A letter in upper case.  Two letters beyond ASCII have an ASCII upper case. -/
def upperLetter (c : Char) : Char :=
  if c = 'ı' then 'I' else if c = 'ſ' then 'S' else c.toUpper

/-- The names of the levels, and whether each shows logged lines. -/
def logLevels : List (String × Bool) :=
  [("CRITICAL", false), ("FATAL", false), ("ERROR", false), ("WARN", false), ("WARNING", false),
    ("INFO", false), ("DEBUG", true), ("NOTSET", true)]

/-- Whether the level of a name shows logged lines, if there is such a level. -/
def showsLog? (name : String) : Option Bool :=
  logLevels.lookup (String.ofList (name.toList.map upperLetter))

/-- A logged line. -/
def logLine (part text : String) : String := "DEBUG tally." ++ part ++ ": " ++ text ++ "\n"

end Reckon.Command
