/-
TapeCompiler.Backend.JavaScript — code for a JavaScript host with streams.

The tape is a typed array `mem` and `p` the index of the current cell.
Reading and writing wait for the host. The part that reads is only there
when the stream reads. Scan and print instructions have no counterpart.
-/
import TapeCompiler.Backend.Block

namespace TapeCompiler

namespace JavaScript

/-- The type of the tape. -/
def arrayType : Width → String
  | .bits8 => "Uint8Array"
  | .bits16 => "Uint16Array"
  | .bits32 => "Uint32Array"

/-- The cell at a distance from the current one. -/
def cell (offset : Int) : String :=
  if offset = 0 then "mem[p]"
  else if offset > 0 then s!"mem[p+{offset}]"
  else s!"mem[p{offset}]"

/-- A loop around some lines that runs `count` times. -/
def repeated (count : Int) (body : List String) : List (Nat × String) :=
  (0, s!"for (let i = 0; i < {count}; i++) \x7b")
    :: body.map (fun text => (1, text)) ++ [(0, "\x7d")]

/-- The statement for an instruction. -/
def statement? (i : Instruction) : Option (List (Nat × String)) :=
  let n := i.value
  match i.opcode with
  | .add => some [(0, if n = 1 then "mem[p]++;" else s!"mem[p] += {n};")]
  | .sub => some [(0, if n = 1 then "mem[p]--;" else s!"mem[p] -= {n};")]
  | .right => some [(0, if n = 1 then "p++;" else s!"p += {n};")]
  | .left => some [(0, if n = 1 then "p--;" else s!"p -= {n};")]
  | .write =>
    some (if n = 1 then [(0, "await output(mem[p]);")] else repeated n ["await output(mem[p]);"])
  | .read => some (repeated n ["const c = await input();", "if (c >= 0) mem[p] = c;"])
  | .loopStart => some [(0, "while (mem[p]) \x7b")]
  | .guard => some [(0, "if (mem[p]) \x7b")]
  | .loopEnd | .label => some [(0, "\x7d")]
  | .mul =>
    let target := cell i.offset
    if n = -1 ∧ i.offset = 0 then some [(0, "mem[p] = 0;")]
    else if n = 1 then some [(0, s!"{target} += mem[p];")]
    else if n = -1 then some [(0, s!"{target} -= mem[p];")]
    else some [(0, s!"{target} += mem[p] * {n};")]
  | .div => some [(0, s!"{cell i.offset} /= {n};")]
  | .store => some [(0, s!"{cell i.offset} = {n};")]
  | .scanRight | .scanLeft | .printRun => none

/-- The part that reads: bytes that come early are kept, and reads that come
early wait; `-1` stands for the end. -/
def inputPart : List Line :=
  [.atMargin "const inputcb = [];",
    .atMargin "const inputbuf = [];",
    .atMargin "let inputdone = false;",
    .atMargin "",
    .atMargin "async function input() \x7b",
    ⟨⟨1⟩, "if (inputbuf.length > 0) \x7b", .code⟩,
    ⟨⟨2⟩, "return inputbuf.shift();", .code⟩,
    ⟨⟨1⟩, "\x7d", .code⟩,
    ⟨⟨1⟩, "if (inputdone) \x7b", .code⟩,
    ⟨⟨2⟩, "return -1;", .code⟩,
    ⟨⟨1⟩, "\x7d", .code⟩,
    .atMargin "",
    ⟨⟨1⟩, "return new Promise((resolve) => \x7b", .code⟩,
    ⟨⟨2⟩, "inputcb.push(resolve);", .code⟩,
    ⟨⟨1⟩, "\x7d);", .code⟩,
    .atMargin "\x7d",
    .atMargin "",
    .atMargin "process.stdin.on(\"data\", (data) => \x7b",
    ⟨⟨1⟩, "for (let i = 0; i < data.length; i++) \x7b", .code⟩,
    ⟨⟨2⟩, "if (inputcb.length > 0) \x7b", .code⟩,
    ⟨⟨3⟩, "inputcb.shift()(data[i]);", .code⟩,
    ⟨⟨2⟩, "\x7d else \x7b", .code⟩,
    ⟨⟨3⟩, "inputbuf.push(data[i]);", .code⟩,
    ⟨⟨2⟩, "\x7d", .code⟩,
    ⟨⟨1⟩, "\x7d", .code⟩,
    .atMargin "\x7d);",
    .atMargin "",
    .atMargin "process.stdin.on(\"end\", () => \x7b",
    ⟨⟨1⟩, "inputdone = true;", .code⟩,
    ⟨⟨1⟩, "while (inputcb.length > 0) \x7b", .code⟩,
    ⟨⟨2⟩, "inputcb.shift()(-1);", .code⟩,
    ⟨⟨1⟩, "\x7d", .code⟩,
    .atMargin "\x7d);",
    .atMargin ""]

/-- The part that writes, and waits when the host cannot keep up. -/
def outputPart : List Line :=
  [.atMargin "async function output(v) \x7b",
    ⟨⟨1⟩, "const wrote = process.stdout.write(String.fromCharCode(v & 0xff));", .code⟩,
    ⟨⟨1⟩, "if (!wrote) \x7b", .code⟩,
    ⟨⟨2⟩, "await new Promise((resolve) => \x7b", .code⟩,
    ⟨⟨3⟩, "process.stdout.once(\"drain\", resolve);", .code⟩,
    ⟨⟨2⟩, "\x7d);", .code⟩,
    ⟨⟨1⟩, "\x7d", .code⟩,
    .atMargin "\x7d",
    .atMargin ""]

/-- What stands before the code of the stream. -/
def header (options : EmitOptions) (reads : Bool) : List Line :=
  .atMargin "const process = require(\"process\");"
    :: (if reads then inputPart else []) ++ outputPart
    ++ [.atMargin "async function main() \x7b",
      ⟨⟨1⟩, s!"const mem = new {arrayType options.width}({options.memorySize});", .code⟩,
      ⟨⟨1⟩, "let p = 0;", .code⟩]

/-- What stands behind the code of the stream. -/
def footer (reads : Bool) : List Line :=
  (if reads then [⟨⟨1⟩, "process.stdin.unref();", .code⟩] else [])
    ++ [.atMargin "\x7d", .atMargin "", .atMargin "main();"]

/-- The wording of JavaScript. -/
def dialect (options : EmitOptions) (reads : Bool) : Dialect where
  target := .javaScript
  commentMark := "// "
  header := header options reads
  statement := statement?
  closer := "\x7d"
  footer := footer reads

/-- The code of a stream. -/
def emission (options : EmitOptions) (code : List Instruction) : Emission Line :=
  let reads := code.any (fun i => i.opcode == .read)
  ((dialect options reads).emitter options.comments).emit code

end JavaScript

end TapeCompiler
