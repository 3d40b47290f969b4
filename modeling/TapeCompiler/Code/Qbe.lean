/-
TapeCompiler.Code.Qbe — the part of the QBE language that is generated.

Temporaries hold 32-bit words, apart from `%p` and `%p2`, which hold
addresses. A temporary may be assigned more than once. Loads, stores and
extensions depend on the cell width, so rendering takes the width.
-/
import TapeCompiler.Width

namespace TapeCompiler

namespace Qbe

/-! ## 1. Names -/

/-- The temporaries of the generated function. -/
inductive Temp where
  /-- The address of the current cell. -/
  | p
  /-- The value of the current cell. -/
  | v
  /-- The byte read last. -/
  | c
  /-- Whether the last read met the end. -/
  | eof
  /-- The address of another cell. -/
  | p2
  /-- A product or constant on its way to another cell. -/
  | v2
  /-- The value of another cell. -/
  | v3
  deriving DecidableEq, Repr, Inhabited

/-- The name of a temporary. -/
def Temp.name : Temp → String
  | .p => "%p"
  | .v => "%v"
  | .c => "%c"
  | .eof => "%eof"
  | .p2 => "%p2"
  | .v2 => "%v2"
  | .v3 => "%v3"

/-- The labels of the generated function. -/
inductive Label where
  | start
  /-- The test of a loop. -/
  | loopHead (label : Int)
  | loopBody (label : Int)
  | loopExit (label : Int)
  | guardBody (label : Int)
  | guardEnd (label : Int)
  /-- Where the `k`-th read got a byte. -/
  | readByte (k : Nat)
  /-- Where the `k`-th read is over. -/
  | readDone (k : Nat)
  deriving DecidableEq, Repr, Inhabited

/-- The name of a label. -/
def Label.name : Label → String
  | .start => "@start"
  | .loopHead n => s!"@JMP{n}f"
  | .loopBody n => s!"@JMP{n}fd"
  | .loopExit n => s!"@JMP{n}bd"
  | .guardBody n => s!"@BZ{n}t"
  | .guardEnd n => s!"@LBL{n}"
  | .readByte k => s!"@IN{k}s"
  | .readDone k => s!"@IN{k}e"

/-! ## 2. Instructions -/

/-- An operand: a temporary or a constant. -/
inductive Arg where
  | temp (t : Temp)
  | const (n : Int)
  deriving DecidableEq, Repr, Inhabited

/-- The text of an operand. -/
def Arg.render : Arg → String
  | .temp t => t.name
  | .const n => toString n

/-- Operations on two words or on an address and a distance. -/
inductive BinaryOp where
  | add
  | sub
  | mul
  | udiv
  deriving DecidableEq, Repr, Inhabited

/-- The name of an operation. -/
def BinaryOp.name : BinaryOp → String
  | .add => "add"
  | .sub => "sub"
  | .mul => "mul"
  | .udiv => "udiv"

/-- An instruction of the generated function. -/
inductive Instr where
  /-- Points `%p` at the first cell. -/
  | tapeStart
  | copy (dst : Temp) (src : Arg)
  /-- An operation on words. -/
  | word (op : BinaryOp) (dst lhs : Temp) (rhs : Arg)
  /-- A distance in bytes from an address. -/
  | offset (op : BinaryOp) (dst base : Temp) (distance : Int)
  /-- Loads a cell. -/
  | load (dst addr : Temp)
  /-- Stores a cell. -/
  | store (src addr : Temp)
  /-- Brings a word back into the range of a cell. -/
  | extend (t : Temp)
  /-- Tests whether a word is negative. -/
  | isNegative (dst src : Temp)
  | putchar (src : Temp)
  | getchar (dst : Temp)
  | jump (target : Label)
  | branch (test : Temp) (nonzero zero : Label)
  | ret
  deriving DecidableEq, Repr, Inhabited

/-- The load instruction for a cell. -/
def loadName : Width → String
  | .bits8 => "loadub"
  | .bits16 => "loaduh"
  | .bits32 => "loadw"

/-- The store instruction for a cell. -/
def storeName : Width → String
  | .bits8 => "storeb"
  | .bits16 => "storeh"
  | .bits32 => "storew"

/-- The zero extension from a cell to a word; for a cell that is a word it
is a plain copy. -/
def extendName : Width → String
  | .bits8 => "extub"
  | .bits16 => "extuh"
  | .bits32 => "copy"

/-- The text of an instruction. -/
def Instr.render (w : Width) : Instr → String
  | .tapeStart => "%p =l copy $MEM"
  | .copy dst src => s!"{dst.name} =w copy {src.render}"
  | .word op dst lhs rhs => s!"{dst.name} =w {op.name} {lhs.name}, {rhs.render}"
  | .offset op dst base distance => s!"{dst.name} =l {op.name} {base.name}, {distance}"
  | .load dst addr => s!"{dst.name} =w {loadName w} {addr.name}"
  | .store src addr => s!"{storeName w} {src.name}, {addr.name}"
  | .extend t => s!"{t.name} =w {extendName w} {t.name}"
  | .isNegative dst src => s!"{dst.name} =w csltw {src.name}, 0"
  | .putchar src => s!"call $putchar(w {src.name})"
  | .getchar dst => s!"{dst.name} =w call $getchar()"
  | .jump target => s!"jmp {target.name}"
  | .branch test nonzero zero => s!"jnz {test.name}, {nonzero.name}, {zero.name}"
  | .ret => "ret 0"

/-! ## 3. Lines -/

/-- A line of generated code. -/
inductive Line where
  /-- The tape, of this many bytes. -/
  | data (bytes : Nat)
  | blank
  | functionOpen
  | functionClose
  | label (name : Label)
  | instr (code : Instr)
  | comment (text : String)
  deriving DecidableEq, Repr, Inhabited

/-- The text of a line, with its line end. -/
def Line.render (w : Width) : Line → String
  | .data bytes => s!"data $MEM = \x7b z {bytes} \x7d\n"
  | .blank => "\n"
  | .functionOpen => "export function w $main() \x7b\n"
  | .functionClose => "\x7d\n"
  | .label name => name.name ++ "\n"
  | .instr code => "\t" ++ code.render w ++ "\n"
  | .comment text => "# " ++ text ++ "\n"

end Qbe

end TapeCompiler
