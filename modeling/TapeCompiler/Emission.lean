/-
TapeCompiler.Emission — writing a stream out piece by piece.

An `Emitter` turns a stream into pieces of text: some at the start, some
for each instruction, some at the end. Its state is whatever it has to
remember from one instruction to the next. An instruction that it cannot
express, or an operand that overflows, ends the work; what was written up
to there stays written.

* `Emitter.emit` gives the pieces and how the work ended.
* `Emitter.annotated` puts a comment in front of each instruction's pieces
  and changes nothing else.
* `Emission.deliver` writes the pieces into a sink, which may be too small.
-/
import TapeCompiler.Instruction
import TapeCompiler.Target
import TapeCompiler.Width
import TapeCompiler.Channel

namespace TapeCompiler

/-! ## 1. Options and errors -/

/-- What generated code depends on besides the stream. -/
structure EmitOptions where
  /-- Each instruction is preceded by a comment. -/
  comments : Bool := false
  /-- Cells on the tape. -/
  memorySize : Nat := 30000
  width : Width := .bits8
  /-- The name of the source text in debug information. -/
  sourceName : String := "input.bf"
  deriving DecidableEq, Repr, Inhabited

/-- Why an emitter stopped early. -/
inductive EmitFault where
  | unsupported (target : Target) (opcode : Opcode) (position : Option Position)
  | overflow (cause : Overflow)
  deriving DecidableEq, Repr, Inhabited

/-- The report of a fault. -/
def EmitFault.message : EmitFault → String
  | .unsupported target opcode position =>
    s!"the {target.name} backend cannot express {opcode.mnemonic} (at {Position.describe position})"
  | .overflow cause => cause.message

/-- The fault of meeting an instruction that the target cannot express. -/
def EmitFault.atInstruction (target : Target) (i : Instruction) : EmitFault :=
  .unsupported target i.opcode i.position

/-! ## 2. Emitters -/

/-- Pieces of text, and what comes of having written them. -/
structure Written (α β : Type) where
  pieces : List α
  result : Except EmitFault β

/-- Text that is complete, with its result. -/
def Written.ok {α β : Type} (pieces : List α) (result : β) : Written α β :=
  ⟨pieces, .ok result⟩

/-- Text that breaks off. -/
def Written.fail {α β : Type} (pieces : List α) (fault : EmitFault) : Written α β :=
  ⟨pieces, .error fault⟩

/-- A way to write streams: `σ` is the state between instructions, `α` the
kind of the pieces. -/
structure Emitter (σ α : Type) where
  start : Written α σ
  step : σ → Instruction → Written α σ
  finish : σ → Written α (List Warning)

/-- The pieces an emitter wrote, and its warnings or the fault it met. -/
structure Emission (α : Type) where
  pieces : Array α
  outcome : Except EmitFault (List Warning)

namespace Emitter

variable {σ α : Type}

/-- Goes on with the rest of a stream, after the pieces `done`. -/
def run (e : Emitter σ α) (done : Array α) (state : σ) : List Instruction → Emission α
  | [] =>
    let last := e.finish state
    ⟨done.append last.pieces.toArray, last.result⟩
  | i :: rest =>
    let w := e.step state i
    match w.result with
    | .ok state => e.run (done.append w.pieces.toArray) state rest
    | .error fault => ⟨done.append w.pieces.toArray, .error fault⟩

/-- Writes a whole stream. -/
def emit (e : Emitter σ α) (code : List Instruction) : Emission α :=
  match e.start.result with
  | .ok state => e.run e.start.pieces.toArray state code
  | .error fault => ⟨e.start.pieces.toArray, .error fault⟩

/-- The same emitter with a comment before the pieces of each instruction. -/
def annotated (e : Emitter σ α) (comment : σ → Instruction → α) : Emitter σ α :=
  { e with
    step := fun state i =>
      let note := comment state i
      let w := e.step state i
      ⟨note :: w.pieces, w.result⟩ }

/-- The emitter with its comments switched on or off. -/
def withComments (e : Emitter σ α) (on : Bool) (comment : σ → Instruction → α) : Emitter σ α :=
  if on then e.annotated comment else e

end Emitter

/-! ## 3. Text -/

/-- The same emission with its pieces rendered. -/
def Emission.map {α β : Type} (f : α → β) (e : Emission α) : Emission β :=
  ⟨e.pieces.map f, e.outcome⟩

/-- The whole text of an emission. -/
def Emission.text (e : Emission String) : String :=
  e.pieces.foldl (· ++ ·) ""

/-- Why writing code failed. -/
inductive EmitError where
  | fault (cause : EmitFault)
  | output (failure : WriteFailure)
  deriving DecidableEq, Repr, Inhabited

/-- The report of an error. -/
def EmitError.message : EmitError → String
  | .fault cause => cause.message
  | .output failure => "could not write generated code: " ++ failure.message

/-- What arrived in a sink, and how the work ended. -/
structure Delivery where
  sink : Sink
  outcome : Except EmitError (List Warning)

/-- Writes the pieces of an emission into a sink. A sink that is too small
for the text is filled, and its failure hides how the emission itself ended. -/
def Emission.deliver (e : Emission String) (sink : Sink) : Delivery :=
  let (sink, failure) := sink.putAll (e.pieces.toList.map (fun piece => piece.toUTF8.data))
  match failure with
  | some failure => ⟨sink, .error (.output failure)⟩
  | none => ⟨sink, e.outcome.mapError .fault⟩

end TapeCompiler
