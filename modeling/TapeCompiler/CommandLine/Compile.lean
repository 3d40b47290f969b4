/-
TapeCompiler.CommandLine.Compile — carrying out a request.

The order of work: check the width, read the source file, parse, optimize,
create the output file, and then run the program or write code. The first
failure ends the work; what was written before stays written.
-/
import TapeCompiler.Source
import TapeCompiler.Pass
import TapeCompiler.Machine
import TapeCompiler.Emit
import TapeCompiler.CommandLine.Arguments
import TapeCompiler.CommandLine.Host

namespace TapeCompiler

namespace CommandLine

/-! ## 1. Reports -/

/-- How the marks in front of reports are shown. -/
structure Marks where
  error : String := "error:"
  warning : String := "warning:"
  deriving DecidableEq, Repr, Inhabited

/-- Marks in bold red and bold yellow. -/
def Marks.coloured : Marks where
  error := "\x1b[1;31merror:\x1b[0m"
  warning := "\x1b[1;33mwarning:\x1b[0m"

/-- The statistics of a flattening pass, a line for each counter. -/
def statsReport (stats : LoopStats) : String :=
  s!"  dead loops removed:  {stats.deadLoops}\n"
    ++ s!"  clear loops:         {stats.clearLoops}\n"
    ++ s!"  multiply loops:      {stats.multiplyLoops}\n"
    ++ s!"  divisions:           {stats.divisions}\n"
    ++ s!"  folded stores:       {stats.foldedStores}\n"
    ++ s!"  removed stores:      {stats.removedStores}\n"
    ++ s!"  scans:               {stats.scans}\n"
    ++ s!"  prints:              {stats.prints}\n"

/-- The statistics of merging a stream of length `before`, as far as the
optimizer got. -/
def mergeReport (before : Nat) (merged : List Instruction) : String :=
  s!"peephole: {before} -> {merged.length} instructions\n"

/-- The statistics of flattening a stream of length `before`. -/
def flattenReport (before : Nat) (flattened : List Instruction × LoopStats) : String :=
  s!"loops: {before} -> {flattened.1.length} instructions\n" ++ statsReport flattened.2

/-- The report of a failed run. The cause of a write failure follows its
report once more, as causes do. -/
def runReport : RunFailure → String
  | .output failure => (RunFailure.output failure).message ++ ": " ++ failure.message
  | failure => failure.message

/-- The report of failed emission, with causes in the same way. -/
def emitReport : EmitError → String
  | .output failure => (EmitError.output failure).message ++ ": " ++ failure.message
  | error => error.message

/-! ## 2. Work -/

section Work

variable {m : Type → Type} [Monad m]

/-- A result that fails with a text. -/
def orFail {ε α : Type} (message : ε → String) (result : Except ε α) : ExceptT String m α :=
  match result with
  | .ok a => return a
  | .error e => throw (message e)

/-- Reads and parses the source file. -/
def readSource (host : Host m) (file : String) : ExceptT String m (List Instruction) := do
  let unreadable := s!"could not read {file}: "
  let bytes ← orFail (fun e => unreadable ++ FileError.message e) (← host.readFile file)
  match String.fromUTF8? bytes with
  | none => throw (unreadable ++ "stream did not contain valid UTF-8")
  | some text =>
    orFail (fun e => s!"could not parse {file}: " ++ ParseError.message e) (Source.parse text)

/-- Optimizes the stream if that is asked for. -/
def optimizeStream (host : Host m) (a : Arguments) (code : List Instruction) :
    ExceptT String m (List Instruction) := do
  if a.optimize then
    let optimized ← orFail FlattenError.message (Stream.optimize a.target code)
    if a.debug then
      host.report (mergeReport code.length optimized.merged)
      if let some flattened := optimized.flattened then
        host.report (flattenReport optimized.merged.length flattened)
    return optimized.code
  else return code

/-- Passes on what a sink collected. -/
def passOn (host : Host m) (out : Option String) (sink : Sink) : ExceptT String m Unit := do
  let failed := "could not flush output: "
  orFail (fun e => failed ++ WriteFailure.message e) sink.flush
  orFail (fun e => failed ++ FileError.message e) (← host.write out ⟨sink.written⟩)

/-- Passes on what a sink collected before the work broke off, as far as
that can be done. -/
def salvage (host : Host m) (out : Option String) (sink : Sink) : ExceptT String m Unit := do
  let _ ← host.write out ⟨sink.written⟩

/-- Shows the remarks of a run or an emission. -/
def showWarnings (host : Host m) (marks : Marks) (warnings : List Warning) :
    ExceptT String m Unit :=
  warnings.forM (fun w => host.report s!"{marks.warning} {w.toText}\n")

/-- Runs the program on a fresh tape. -/
def runProgram (host : Host m) (marks : Marks) (a : Arguments) (out : Option String) (sink : Sink)
    (width : Width) (code : List Instruction) : ExceptT String m Unit := do
  let bytes ← host.input
  let machine := { Machine.blank a.memory with input := Input.ofBytes bytes, sink }
  match machine.execute code width none with
  | .error crash =>
    salvage host out crash.sink
    throw (runReport crash.failure)
  | .ok (_, machine) =>
    passOn host out machine.sink
    showWarnings host marks machine.warnings.toList
    if a.debug then host.report s!"executed {machine.steps} steps\n"

/-- Writes the code of the program. -/
def writeCode (host : Host m) (marks : Marks) (a : Arguments) (out : Option String) (sink : Sink)
    (width : Width) (code : List Instruction) : ExceptT String m Unit := do
  let options : EmitOptions :=
    { comments := a.comments, memorySize := a.memory, width, sourceName := a.file }
  let delivery := Stream.emit a.target options code sink
  match delivery.outcome with
  | .error e =>
    salvage host out delivery.sink
    throw (emitReport e)
  | .ok warnings =>
    passOn host out delivery.sink
    showWarnings host marks warnings

/-- Compiles or runs the source file. -/
def compile (host : Host m) (marks : Marks) (a : Arguments) : ExceptT String m Unit := do
  let width ← orFail UnsupportedWidth.message (Width.ofBits a.width)
  let code ← readSource host a.file
  let code ← optimizeStream host a code
  let out := if a.out = some "-" then none else a.out
  let sink ← match out with
    | none => pure {}
    | some name =>
      orFail (fun e => s!"could not create output file {name}: " ++ FileError.message e)
        (← host.createFile name)
  if a.interpret then runProgram host marks a out sink width code
  else writeCode host marks a out sink width code

/-- Carries out the request of a list of arguments; gives the exit code. -/
def run (host : Host m) (marks : Marks) (arguments : List String) : m Nat := do
  match Request.ofArguments arguments with
  | .error fault =>
    host.report (fault.message ++ "\n" ++ hint)
    return 1
  | .ok .help =>
    let _ ← host.write none usage.toUTF8
    return 0
  | .ok (.compile a) =>
    match ← (compile host marks a).run with
    | .ok () => return 0
    | .error message =>
      host.report s!"{marks.error} {message}\n"
      return 1

end Work

end CommandLine

end TapeCompiler
