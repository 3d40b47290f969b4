/-
TapeCompiler.Main — the command line on the real file system.

This module only connects the pure command line to files and standard
channels. Marks are coloured when the environment forces it.
-/
import TapeCompiler.CommandLine.Compile

namespace TapeCompiler

namespace CommandLine

/-- The code of the system call is this one, with either sign. -/
def isCode (code : UInt32) (n : UInt32) : Bool :=
  code == n || code + n == 0

/-- The file error that a failed system call stands for. -/
def FileError.ofSystem (e : IO.Error) : FileError :=
  let other := FileError.other e.toString
  match e with
  | .noFileOrDirectory .. => .notFound
  | .noSuchThing _ code _ => if isCode code 6 then .noDevice else other
  | .inappropriateType _ code _ =>
    if isCode code 20 then .notADirectory
    else if isCode code 21 then .isADirectory
    else other
  | .permissionDenied _ code _ => if isCode code 13 then .denied else other
  | .resourceBusy code _ => if isCode code 26 then .busy else other
  | .invalidArgument _ code _ => if isCode code 36 then .nameTooLong else other
  | .resourceExhausted _ code _ =>
    if isCode code 28 then .other (WriteFailure.message .noSpace) else other
  | _ => other

/-- The result of a system call that may fail. -/
def attempt {α : Type} (action : IO α) : IO (Except FileError α) := do
  match ← action.toBaseIO with
  | .ok a => return .ok a
  | .error e => return .error (FileError.ofSystem e)

/-- Makes an empty file, or empties one. -/
def createFile (path : String) : IO Sink := do
  IO.FS.writeBinFile path ByteArray.empty
  let place ← IO.FS.realPath path
  return if place.toString == "/dev/full" then .fullDevice else {}

/-- The host of a running process. -/
def processHost : Host IO where
  readFile path := attempt (IO.FS.readBinFile path)
  createFile path := attempt (createFile path)
  input := do (← IO.getStdin).readBinToEnd
  write name bytes :=
    match name with
    | some path => attempt (IO.FS.writeBinFile path bytes)
    | none => do (← IO.getStdout).write bytes; return .ok ()
  report text := do (← IO.getStderr).putStr text

end CommandLine

end TapeCompiler

/-- Runs the command line and exits with its code. -/
def main (arguments : List String) : IO UInt32 := do
  let forced ← IO.getEnv "CLICOLOR_FORCE"
  let marks : TapeCompiler.CommandLine.Marks :=
    if forced.isNone || forced == some "0" then {} else .coloured
  let code ← TapeCompiler.CommandLine.run TapeCompiler.CommandLine.processHost marks arguments
  return code.toUInt32
