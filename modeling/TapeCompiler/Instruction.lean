/-
TapeCompiler.Instruction — the flat instruction stream.

Optimizers, interpreter and backends all work on one list of instructions.
A loop is not a nested structure but a pair `loopStart` … `loopEnd` that
carries the same label, and a guarded region is a pair `guard` … `label`.
Eight opcodes have a symbol in the source language; the other eight arise
only by optimization.
-/
import TapeCompiler.Operand
import TapeCompiler.Position

namespace TapeCompiler

/-! ## 1. Opcodes -/

/-- What an instruction does; `p` is the data pointer, `v` the instruction's
value and `d` its offset. -/
inductive Opcode where
  /-- Adds `v` to cell `p`. -/
  | add
  /-- Subtracts `v` from cell `p`. -/
  | sub
  /-- Moves `p` by `v` to the right. -/
  | right
  /-- Moves `p` by `v` to the left. -/
  | left
  /-- Writes cell `p` out, `v` times. -/
  | write
  /-- Reads `v` bytes into cell `p`, so that the last one stays. -/
  | read
  /-- Skips to the end of loop `v` when cell `p` is zero. -/
  | loopStart
  /-- Goes back to the start of loop `v` unless cell `p` is zero. -/
  | loopEnd
  /-- Adds `v` times cell `p` to cell `p + d`; with `v = -1` and `d = 0` it
  clears cell `p`. -/
  | mul
  /-- Divides cell `p + d` by `v`, rounding down. -/
  | div
  /-- Skips to label `v` when cell `p` is zero. -/
  | guard
  /-- Marks the place of label `v`. -/
  | label
  /-- Sets cell `p + d` to `v`. -/
  | store
  /-- Moves `p` right to the nearest zero cell. -/
  | scanRight
  /-- Moves `p` left to the nearest zero cell. -/
  | scanLeft
  /-- Writes cells from `p` on up to a zero cell, and leaves `p` there. -/
  | printRun
  deriving DecidableEq, Repr, Inhabited

namespace Opcode

/-- Every opcode, those of the source language first. -/
def all : List Opcode :=
  [.add, .sub, .right, .left, .write, .read, .loopStart, .loopEnd,
    .mul, .div, .guard, .label, .store, .scanRight, .scanLeft, .printRun]

/-- The name of an opcode in listings and reports. -/
def mnemonic : Opcode → String
  | .add => "ADD"
  | .sub => "SUB"
  | .right => "INCP"
  | .left => "DECP"
  | .write => "OUT"
  | .read => "IN"
  | .loopStart => "JMPF"
  | .loopEnd => "JMPB"
  | .mul => "MUL"
  | .div => "DIV"
  | .guard => "BZ"
  | .label => "LBL"
  | .store => "MOV"
  | .scanRight => "SCANR"
  | .scanLeft => "SCANL"
  | .printRun => "PRNT"

/-- The opcode of a given name. -/
def ofMnemonic? (name : String) : Option Opcode :=
  all.find? (fun op => op.mnemonic == name)

/-- The source character of an opcode, for the eight that have one. -/
def symbol? : Opcode → Option Char
  | .add => some '+'
  | .sub => some '-'
  | .right => some '>'
  | .left => some '<'
  | .write => some '.'
  | .read => some ','
  | .loopStart => some '['
  | .loopEnd => some ']'
  | _ => none

/-- The opcode of a source character; every other character is a comment. -/
def ofSymbol? : Char → Option Opcode
  | '+' => some .add
  | '-' => some .sub
  | '>' => some .right
  | '<' => some .left
  | '.' => some .write
  | ',' => some .read
  | '[' => some .loopStart
  | ']' => some .loopEnd
  | _ => none

/-- The opcode that undoes this one, for cell and pointer steps. -/
def opposite? : Opcode → Option Opcode
  | .add => some .sub
  | .sub => some .add
  | .right => some .left
  | .left => some .right
  | _ => none

/-- The opcode opens a block, which a later instruction closes. -/
def opensBlock : Opcode → Bool
  | .loopStart | .guard => true
  | _ => false

/-- The opcode closes a block. -/
def closesBlock : Opcode → Bool
  | .loopEnd | .label => true
  | _ => false

/-- Reading a symbol gives back the opcode it was written for. -/
theorem ofSymbol?_eq_some_iff {c : Char} {op : Opcode} :
    ofSymbol? c = some op ↔ op.symbol? = some c := by
  constructor
  · intro h
    unfold ofSymbol? at h
    split at h <;> simp_all [symbol?] <;> subst h <;> rfl
  · intro h
    cases op <;> simp [symbol?] at h <;> subst h <;> rfl

end Opcode

/-! ## 2. Instructions -/

/-- One instruction. The value is a repeat count, a label or a constant, by
opcode; the offset is a distance in cells for `mul`, `div` and `store`. -/
structure Instruction where
  opcode : Opcode
  value : Int
  offset : Int := 0
  position : Option Position := none
  deriving DecidableEq, Repr, Inhabited

namespace Instruction

/-- Name and both operands, as comments and listings show them. -/
def toText (i : Instruction) : String :=
  s!"{i.opcode.mnemonic} ({i.value}, {i.offset})"

/-- The comment that precedes generated code: where the instruction came
from, if that is known, and the instruction. -/
def describe (i : Instruction) : String :=
  match i.position with
  | some p => s!"Line {p.line}, Pos {p.column}: " ++ i.toText
  | none => i.toText

/-- The instruction moves the data pointer. -/
def movesPointer (i : Instruction) : Bool :=
  match i.opcode with
  | .right | .left => true
  | _ => false

/-- How far the instruction moves the data pointer to the right. -/
def displacement (i : Instruction) : Except Overflow Int :=
  match i.opcode with
  | .right => .ok i.value
  | .left => Operand.neg i.value
  | _ => .ok 0

end Instruction

end TapeCompiler
