/-!
# Usage texts
-/

namespace Reckon.Command

/-- The usage lines. -/
def usage : String :=
  "usage: tally [-h] [--parser \x7blalr,earley\x7d] [--no-tree | --tree-only]\n" ++
  "             [--token-types] [--indent INDENT] [--log-level LOG_LEVEL]\n" ++
  "             [source]\n"

/-- The help text. -/
def help : String :=
  usage ++
  "\n" ++
  "Evaluate a Tally program and print its parse tree.\n" ++
  "\n" ++
  "positional arguments:\n" ++
  "  source                Path to a source file (defaults to stdin)\n" ++
  "\n" ++
  "options:\n" ++
  "  -h, --help            show this help message and exit\n" ++
  "  --parser \x7blalr,earley\x7d\n" ++
  "                        Parsing engine (default: $TALLY_PARSER or lalr)\n" ++
  "  --no-tree             Evaluate only; skip the parse tree\n" ++
  "  --tree-only           Print the parse tree without evaluating\n" ++
  "  --token-types         Prefix terminal lines with their token type\n" ++
  "  --indent INDENT       Spaces per tree depth level (default: 2)\n" ++
  "  --log-level LOG_LEVEL\n" ++
  "                        Logging level (default: $TALLY_LOG_LEVEL or WARNING)\n"

/-- What is written about arguments that cannot be used. -/
def usageError (message : String) : String := usage ++ "tally: error: " ++ message ++ "\n"

end Reckon.Command
