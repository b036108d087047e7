import Reckon.Text.Utf8

/-!
# Sources of the command

A source is standard input or a file.  Paths are followed through a folder part by part, leaving out
empty parts and single dots, and neither a part nor a path may be too long.  The bytes found are
decoded, and every line ending becomes a newline.
-/

namespace Reckon.Command

/-- Why a source cannot be read. -/
inductive SourceFault where
  | missing
  | isFolder
  | notFolder
  | nameTooLong
  | malformed (bytes : Utf8.Malformed)
  deriving DecidableEq

/-- The wording of a fault. -/
def SourceFault.message : SourceFault → String
  | .missing => "No such file or directory"
  | .isFolder => "Is a directory"
  | .notFolder => "Not a directory"
  | .nameTooLong => "File name too long"
  | .malformed bytes => bytes.message

/-- A folder: its files with the parts of their paths. -/
structure Folder where
  files : List (List String × List UInt8)

/-- Where a path has led so far: to a place inside the folder, or out of it. -/
inductive Place where
  | inside (parts : List String)
  | outside

namespace Folder

/-- The file at a place. -/
def file? (folder : Folder) (parts : List String) : Option (List UInt8) :=
  folder.files.lookup parts

/-- Whether a place holds files or folders. -/
def isFolder (folder : Folder) (parts : List String) : Bool :=
  parts.isEmpty || folder.files.any fun file => parts.isPrefixOf file.1 && parts != file.1

/-- The number of bytes that a part of a path may have. -/
def partLimit : Nat := 255

/-- The number of bytes that a path may have. -/
def pathLimit : Nat := 4095

/-- The place that a part of a path leads to. -/
def follow (folder : Folder) : Place → String → Except SourceFault Place
  | .outside, part =>
    if part = ".." then .ok .outside
    else if partLimit < part.utf8ByteSize then .error .nameTooLong
    else .error .missing
  | .inside parts, part =>
    if folder.isFolder parts then
      if part = ".." then .ok (if parts.isEmpty then .outside else .inside parts.dropLast)
      else if partLimit < part.utf8ByteSize then .error .nameTooLong
      else .ok (.inside (parts ++ [part]))
    else if (folder.file? parts).isSome then .error .notFolder
    else .error .missing

/-- The bytes at a place. -/
def read (folder : Folder) : Place → Except SourceFault (List UInt8)
  | .outside => .error .isFolder
  | .inside parts =>
    if folder.isFolder parts then .error .isFolder
    else
      match folder.file? parts with
      | some bytes => .ok bytes
      | none => .error .missing

/-- The parts of a path that lead somewhere. -/
def pathParts (path : String) : List String :=
  (path.splitOn "/").filter fun part => part != "" && part != "."

/-- The beginning of a path that leads to the outermost folder.  Two slashes stay two; more are as
good as one. -/
def pathRoot (path : String) : String :=
  match path.toList.takeWhile (· == '/') with
  | [] => ""
  | [_, _] => "//"
  | _ => "/"

/-- A path without the parts that lead nowhere. -/
def plainPath (path : String) : String :=
  let plain := pathRoot path ++ "/".intercalate (pathParts path)
  if plain = "" then "." else plain

/-- The bytes of the file at a path. -/
def open? (folder : Folder) (path : String) : Except SourceFault (List UInt8) := do
  if pathLimit < (plainPath path).utf8ByteSize then throw .nameTooLong
  let start := if path.startsWith "/" then Place.outside else .inside []
  folder.read (← (pathParts path).foldlM folder.follow start)

end Folder

/-- Text with every line ending made a newline. -/
def newlines : List Char → List Char
  | '\r' :: '\n' :: rest => '\n' :: newlines rest
  | '\r' :: rest => '\n' :: newlines rest
  | c :: rest => c :: newlines rest
  | [] => []

/-- The text of some bytes. -/
def sourceText (bytes : List UInt8) : Except SourceFault String :=
  match Utf8.decode bytes with
  | .ok cs => .ok (.ofList (newlines cs))
  | .error malformed => .error (.malformed malformed)

/-- The bytes of a source: standard input if no path is given or the path is a single minus. -/
def sourceBytes (folder : Folder) (stdin : List UInt8) :
    Option String → Except SourceFault (List UInt8)
  | none => .ok stdin
  | some path => if path = "-" then .ok stdin else folder.open? path

end Reckon.Command
