import Reckon.Command.Report

/-!
# The command

Reads the surroundings, the source and standard input, and writes what `Command.report` gives.
-/

namespace Reckon.Command

/-- All bytes of a stream. -/
partial def readStream (stream : IO.FS.Stream) (done : ByteArray) : IO ByteArray := do
  let bytes ← stream.read 65536
  if bytes.isEmpty then return done else readStream stream (done ++ bytes)

/-- The reason why a file could not be read. -/
def SourceFault.ofError : IO.Error → SourceFault
  | .inappropriateType none .. => .isFolder
  | .inappropriateType (some _) .. => .notFolder
  | .invalidArgument (some _) .. => .nameTooLong
  | _ => .missing

/-- The bytes of a source. -/
def loadSource (source : Option String) : IO (Except SourceFault (List UInt8)) := do
  match source with
  | none | some "-" => return .ok (← readStream (← IO.getStdin) .empty).toList
  | some path =>
    try
      return .ok (← IO.FS.readBinFile (Folder.plainPath path)).toList
    catch error => return .error (.ofError error)

/-- Write what the command writes, and give its exit code. -/
def Transcript.write (transcript : Transcript) : IO UInt32 := do
  IO.print transcript.stdout
  IO.eprint transcript.stderr
  match transcript.ending with
  | .exit code => return code.toUInt32
  | .breakdown breakdown =>
    IO.eprintln (breakdown.className ++ ": " ++ breakdown.message)
    return 1

end Reckon.Command

/-- The number of characters that an indentation may have. -/
def Reckon.Command.textLimit : Nat := twoPow 32

open Reckon.Command in
/-- Run the command. -/
def main (arguments : List String) : IO UInt32 := do
  let surroundings : Surroundings :=
    ⟨← IO.getEnv "TALLY_PARSER", ← IO.getEnv "TALLY_LOG_LEVEL"⟩
  match request surroundings arguments with
  | .ok (.run settings) =>
    if (settings.logLevel.bind showsLog?).isSome then
      (reportRun textLimit settings (← loadSource settings.source)).write
    else (reportRun textLimit settings (.ok [])).write
  | _ => (report textLimit surroundings arguments ⟨[]⟩ []).write
