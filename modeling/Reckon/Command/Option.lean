import Reckon.Text.Blank

/-!
# Options of the command

The arguments of the command are sorted before any of them is acted on: operands, options with or
without an attached value, and unknown options.  A long option may be shortened to any beginning
that no other option shares.
-/

namespace Reckon.Command

/-- An option of the command. -/
inductive Flag where
  | help
  | parser
  | noTree
  | treeOnly
  | tokenTypes
  | indent
  | logLevel
  deriving DecidableEq

namespace Flag

/-- The long name of an option. -/
def longName : Flag → String
  | .help => "--help"
  | .parser => "--parser"
  | .noTree => "--no-tree"
  | .treeOnly => "--tree-only"
  | .tokenTypes => "--token-types"
  | .indent => "--indent"
  | .logLevel => "--log-level"

/-- All options, in the order in which they are listed. -/
def all : List Flag := [.help, .parser, .noTree, .treeOnly, .tokenTypes, .indent, .logLevel]

/-- The short name of `help`, the only option that has one. -/
def shortHelp : String := "-h"

/-- An option in messages. -/
def display : Flag → String
  | .help => "-h/--help"
  | flag => flag.longName

/-- Whether an option takes a value. -/
def takesValue : Flag → Bool
  | .parser | .indent | .logLevel => true
  | _ => false

/-- The option with exactly this name. -/
def ofName? (name : String) : Option Flag :=
  if name = shortHelp then some .help else all.find? fun flag => flag.longName == name

/-- The options whose long name begins with a text. -/
def startingWith (start : List Char) : List Flag :=
  all.filter fun flag => start.isPrefixOf flag.longName.toList

end Flag

/-- An argument, sorted. -/
inductive Word where
  | operand (text : String)
  | option (flag : Flag) (attached : Option String)
  /-- The short name of `help` with more characters run into it or behind an equals sign. -/
  | cluster (rest : List Char)
  | unknown (text : String)
  deriving DecidableEq

/-- An argument that begins more than one option. -/
structure Ambiguous where
  argument : String
  candidates : List Flag
  deriving DecidableEq

/-- The text before the first equals sign, and the text behind it if there is one. -/
def splitValue (cs : List Char) : List Char × Option (List Char) :=
  match cs.dropWhile (· != '=') with
  | [] => (cs, none)
  | _ :: value => (cs.takeWhile (· != '='), some value)

/-- A minus sign before digits, or before a point and digits with or without digits before it.  A
newline at the end does not count. -/
def isNegativeNumber (cs : List Char) : Bool :=
  let isDigit := fun c => (digitValue? c).isSome
  match (if cs.getLast? = some '\n' then cs.dropLast else cs) with
  | '-' :: digits =>
    match digits.dropWhile isDigit with
    | [] => !digits.isEmpty
    | '.' :: fraction => !fraction.isEmpty && fraction.all isDigit
    | _ => false
  | _ => false

/-- An argument that begins with a minus sign and is no option's name. -/
def sortDashed (argument : String) (cs : List Char) : Except Ambiguous Word :=
  let (name, value) := splitValue cs
  match Flag.ofName? (.ofList name), value with
  | some flag, some value =>
    .ok (if name = Flag.shortHelp.toList then .cluster value
      else .option flag (some (.ofList value)))
  | _, _ =>
    let other :=
      if isNegativeNumber cs || cs.contains ' ' then Word.operand argument else .unknown argument
    match cs with
    | '-' :: '-' :: _ =>
      match Flag.startingWith name with
      | [] => .ok other
      | [flag] => .ok (.option flag (value.map String.ofList))
      | flags => .error ⟨argument, flags⟩
    | '-' :: 'h' :: rest => .ok (.cluster rest)
    | _ => .ok other

/-- Sort an argument. -/
def sortArgument (argument : String) : Except Ambiguous Word :=
  match Flag.ofName? argument with
  | some flag => .ok (.option flag none)
  | none =>
    match argument.toList with
    | '-' :: c :: rest => sortDashed argument ('-' :: c :: rest)
    | _ => .ok (.operand argument)

/-- The arguments up to the first `--`, sorted, and those behind it. -/
def sortArguments : List String → Except Ambiguous (List Word × Option (List String))
  | [] => .ok ([], none)
  | argument :: rest =>
    if argument = "--" then .ok ([], some rest)
    else do
      let word ← sortArgument argument
      let (words, behind) ← sortArguments rest
      return (word :: words, behind)

/-- The part of the text run into the short name of `help` that is a value given to it in vain: what
is left when the name has been repeated as often as possible. -/
def clusterValue? (rest : List Char) : Option (List Char) :=
  match rest, rest.dropWhile (· == 'h') with
  | _ :: _, [] => none
  | _, value => some value

end Reckon.Command
