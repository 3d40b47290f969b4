/-
TapeCompiler.Backend.C — C99 code.

The tape is a global array `mem` of unsigned words and `p` points at the
current cell. Every instruction can be expressed, scan and print loops with
library functions when a cell is a byte.
-/
import TapeCompiler.Backend.Block

namespace TapeCompiler

namespace CCode

/-- The type of a cell. -/
def wordType : Width → String
  | .bits8 => "uint8_t"
  | .bits16 => "uint16_t"
  | .bits32 => "uint32_t"

/-- The cell at a distance from the current one. -/
def cell (offset : Int) : String :=
  if offset = 0 then "*p" else s!"p[{offset}]"

/-- A loop around some lines that runs `count` times. -/
def repeated (count : Int) (body : List String) : List (Nat × String) :=
  (0, s!"for (int i = 0; i < {count}; i++) \x7b")
    :: body.map (fun text => (1, text)) ++ [(0, "\x7d")]

/-- The statement for an instruction. -/
def statement (width : Width) (i : Instruction) : List (Nat × String) :=
  let n := i.value
  match i.opcode with
  | .add => [(0, if n = 1 then "(*p)++;" else s!"*p += {n};")]
  | .sub => [(0, if n = 1 then "(*p)--;" else s!"*p -= {n};")]
  | .right => [(0, if n = 1 then "p++;" else s!"p += {n};")]
  | .left => [(0, if n = 1 then "p--;" else s!"p -= {n};")]
  | .write => if n = 1 then [(0, "putchar(*p);")] else repeated n ["putchar(*p);"]
  | .read => repeated n ["int c = getchar();", "if (c != EOF) *p = c;"]
  | .loopStart => [(0, "while (*p) \x7b")]
  | .guard => [(0, "if (*p) \x7b")]
  | .loopEnd | .label => [(0, "\x7d")]
  | .mul =>
    let target := cell i.offset
    if n = -1 ∧ i.offset = 0 then [(0, "*p = 0;")]
    else if n = 1 then [(0, s!"{target} += *p;")]
    else if n = -1 then [(0, s!"{target} -= *p;")]
    else [(0, s!"{target} += *p * {n};")]
  | .div => [(0, s!"{cell i.offset} /= {n};")]
  | .store => [(0, s!"{cell i.offset} = {n};")]
  | .scanRight =>
    if width = .bits8 then
      [(0, s!"p = ({wordType width} *)memchr(p, 0, sizeof(mem) - (p - mem));")]
    else [(0, "while (*p) p++;")]
  | .scanLeft => [(0, "while (*p) p--;")]
  | .printRun =>
    if width = .bits8 then [(0, "p += fwrite(p, 1, strlen((char *)p), stdout);")]
    else [(0, "while (*p) \x7b putchar(*p); p++; \x7d")]

/-- What stands before the code of the stream. -/
def header (options : EmitOptions) : List Line :=
  let word := wordType options.width
  [.atMargin "#include <stdio.h>",
    .atMargin "#include <stdint.h>",
    .atMargin "#include <string.h>",
    .atMargin "",
    .atMargin s!"{word} mem[{options.memorySize}];",
    .atMargin "",
    .atMargin "int main() \x7b",
    ⟨⟨1⟩, s!"{word} *p = mem;", .code⟩]

/-- The wording of C. -/
def dialect (options : EmitOptions) : Dialect where
  target := .c
  commentMark := "// "
  header := header options
  statement i := some (statement options.width i)
  closer := "\x7d"
  footer := [⟨⟨1⟩, "return 0;", .code⟩, .atMargin "\x7d"]

/-- The code of a stream. -/
def emission (options : EmitOptions) (code : List Instruction) : Emission Line :=
  ((dialect options).emitter options.comments).emit code

end CCode

end TapeCompiler
