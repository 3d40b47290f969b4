/-
TapeCompiler.Backend.Block — formats that show blocks by indentation.

Three formats write one instruction as a few lines and differ only in their
wording: `Dialect` holds that wording. An instruction that opens a block
indents what follows, one that closes a block comes back out before its own
line. A block left open is closed at the end, with a warning.
-/
import TapeCompiler.Emission
import TapeCompiler.Code.Layout

namespace TapeCompiler

/-- The wording of a block-structured format. -/
structure Dialect where
  target : Target
  /-- What a comment line starts with. -/
  commentMark : String
  header : List Line
  /-- The lines of an instruction, each with its depth within them; `none`
  if the format cannot express it. -/
  statement : Instruction → Option (List (Nat × String))
  /-- The line that closes a block left open. -/
  closer : String
  footer : List Line

namespace Dialect

/-- The depth of the code outside all blocks. -/
def base : Indent := ⟨1⟩

/-- The depth at which an instruction's own lines stand. -/
def entryIndent (indent : Indent) (i : Instruction) : Indent :=
  if i.opcode.closesBlock then indent.shallower else indent

/-- The depth behind an instruction. -/
def exitIndent (indent : Indent) (i : Instruction) : Indent :=
  if i.opcode.opensBlock then indent.deeper
  else if i.opcode.closesBlock then indent.shallower
  else indent

/-- Lines of code within a block at this depth. -/
def place (indent : Indent) (lines : List (Nat × String)) : List Line :=
  lines.map (fun (depth, text) => ⟨⟨indent.level + depth⟩, text, .code⟩)

/-- The lines that close the blocks from this depth outwards. -/
def closers (d : Dialect) (indent : Indent) : List Line :=
  (List.range (indent.level - base.level)).reverse.map
    (fun depth => ⟨⟨base.level + depth⟩, d.closer, .code⟩)

/-- The warnings at the end of a stream, by the depth reached there. -/
def warnings (indent : Indent) : List Warning :=
  if indent.level > base.level then [Warning.unbalanced] else []

/-- The comment about an instruction. -/
def comment (d : Dialect) (indent : Indent) (i : Instruction) : Line :=
  ⟨indent, d.commentMark ++ i.describe, .comment⟩

/-- The emitter of a format, comments apart. -/
def plainEmitter (d : Dialect) : Emitter Indent Line where
  start := .ok d.header base
  step indent i :=
    match d.statement i with
    | none => .fail [] (.atInstruction d.target i)
    | some lines => .ok (place (entryIndent indent i) lines) (exitIndent indent i)
  finish indent := .ok (d.closers indent ++ d.footer) (warnings indent)

/-- The emitter of a format. -/
def emitter (d : Dialect) (comments : Bool) : Emitter Indent Line :=
  d.plainEmitter.withComments comments d.comment

end Dialect

end TapeCompiler
