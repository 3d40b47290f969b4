/-
TapeCompiler.Session — a stream and a machine that live on from one
command to the next.

Each command gives a new session or fails, and a command that fails leaves
the session as it was. Runs continue on the same tape, and their step
counts and remarks add up.
-/
import TapeCompiler.Machine
import TapeCompiler.Pass

namespace TapeCompiler

/-- A stream, a machine and how the machine's last run ended. -/
structure Session where
  code : List Instruction := []
  machine : Machine
  outcome : Outcome := .completed
  deriving Inhabited

namespace Session

/-- A session without a stream, on a tape of this many zeros. -/
def start (size : Nat) : Session := { machine := Machine.blank size }

/-- Replaces the stream. -/
def load (s : Session) (code : List Instruction) : Session := { s with code }

/-- Puts more instructions behind the stream, labels as they are. -/
def append (s : Session) (code : List Instruction) : Session :=
  { s with code := s.code ++ code }

/-- Applies a pass to the stream. -/
def applyPass (s : Session) (pass : Pass) : Except FlattenError (Session × Option LoopStats) := do
  let passed ← pass.apply s.code
  return ({ s with code := passed.code }, passed.stats)

/-- Runs the stream from its start on the current machine. -/
def execute (s : Session) (width : Width) (limit : Option Nat) (input : Input) (sink : Sink) :
    Except Crash Session := do
  let (outcome, machine) ← { s.machine with input, sink }.execute s.code width limit
  return { s with machine, outcome }

/-- Stores values in cells, given by index, whatever the cell width. -/
def poke (s : Session) (cells : List (Nat × Nat)) : Session :=
  let tape := cells.foldl (fun tape (index, value) => tape.setIfInBounds index value) s.machine.tape
  { s with machine := { s.machine with tape } }

/-- Sets the pointer. -/
def setPointer (s : Session) (pointer : Int) : Session :=
  { s with machine := { s.machine with pointer } }

/-- Sets the step counter. -/
def setSteps (s : Session) (steps : Nat) : Session :=
  { s with machine := { s.machine with steps } }

/-- Starts over with a tape of zeros; the stream stays. -/
def reset (s : Session) (size : Nat) : Session :=
  { s with machine := Machine.blank size, outcome := .completed }

end Session

end TapeCompiler
