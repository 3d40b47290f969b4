/-
TapeCompiler.CommandLine.Host — what the command line needs from outside.

A `Host` gives access to files, the standard input and the two standard
outputs, in any monad. It names the reasons for which a file cannot be used
by `FileError`.
-/
import TapeCompiler.Channel

namespace TapeCompiler

namespace CommandLine

/-- Why a file cannot be used. -/
inductive FileError where
  | notFound
  | notADirectory
  | isADirectory
  /-- A name, or the whole path, has too many bytes. -/
  | nameTooLong
  /-- There is nothing behind the name of a device. -/
  | noDevice
  | denied
  /-- The file is a program that is running. -/
  | busy
  /-- The content has no end. -/
  | outOfMemory
  | other (reason : String)
  deriving DecidableEq, Repr, Inhabited

/-- The wording of a file error. -/
def FileError.message : FileError → String
  | .notFound => "No such file or directory (os error 2)"
  | .notADirectory => "Not a directory (os error 20)"
  | .isADirectory => "Is a directory (os error 21)"
  | .nameTooLong => "File name too long (os error 36)"
  | .noDevice => "No such device or address (os error 6)"
  | .denied => "Permission denied (os error 13)"
  | .busy => "Text file busy (os error 26)"
  | .outOfMemory => "out of memory"
  | .other reason => reason

/-- Access to the outside in a monad. -/
structure Host (m : Type → Type) where
  /-- The content of a file. -/
  readFile : String → m (Except FileError ByteArray)
  /-- Makes an empty file, or empties one; gives the sink that stands before
  it while output is collected. -/
  createFile : String → m (Except FileError Sink)
  /-- All of the standard input. -/
  input : m ByteArray
  /-- Writes to a file that was created before, or to the standard output. -/
  write : Option String → ByteArray → m (Except FileError Unit)
  /-- Writes to the standard error output. -/
  report : String → m Unit

end CommandLine

end TapeCompiler
