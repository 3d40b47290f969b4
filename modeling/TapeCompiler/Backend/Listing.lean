/-
TapeCompiler.Backend.Listing — a readable listing of the stream.

One line for each instruction: its name, and then as many operands as its
opcode has. Labels are led by `@`.
-/
import TapeCompiler.Backend.Block

namespace TapeCompiler

namespace Listing

/-- The line of an instruction. -/
def line (i : Instruction) : String :=
  let name := i.opcode.mnemonic
  match i.opcode with
  | .loopStart | .guard | .loopEnd | .label => s!"{name} @{i.value}"
  | .mul | .div | .store => s!"{name} {i.value}, {i.offset}"
  | .scanRight | .scanLeft | .printRun => name
  | _ => s!"{name} {i.value}"

/-- The wording of the listing. -/
def dialect : Dialect where
  target := .listing
  commentMark := "# "
  header := []
  statement i := some [(0, line i)]
  closer := "JMPB ??"
  footer := []

/-- The listing of a stream. -/
def emission (options : EmitOptions) (code : List Instruction) : Emission Line :=
  (dialect.emitter options.comments).emit code

end Listing

end TapeCompiler
