/-
TapeCompiler.Backend.Symbols — the source language again.

Only the eight opcodes that have a symbol can be written; a counted one is
its symbol that many times. Comments are made of letters, digits, colons
and blanks, none of which is a symbol, so a commented text reads back as
the same program.
-/
import TapeCompiler.Emission

namespace TapeCompiler

namespace Symbols

/-- A piece of source text. -/
inductive Piece where
  /-- A line break and a note on the instruction that follows. -/
  | note (opcode : Opcode) (position : Option Position)
  /-- A symbol, this many times. -/
  | symbols (symbol : Char) (count : Nat)
  deriving DecidableEq, Repr, Inhabited

/-- The text of a piece. -/
def Piece.render : Piece → String
  | .note opcode (some p) => s!"\n{p.compact}: {opcode.mnemonic} "
  | .note opcode none => s!"\n{opcode.mnemonic} "
  | .symbols symbol count => String.ofList (List.replicate count symbol)

/-- How often the symbol of an instruction is written. -/
def count (i : Instruction) : Nat :=
  match i.opcode with
  | .loopStart | .loopEnd => 1
  | _ => i.value.toNat

/-- The emitter. -/
def emitter (comments : Bool) : Emitter Unit Piece where
  start := .ok [] ()
  step _ i :=
    match i.opcode.symbol? with
    | none => .fail [] (.atInstruction .symbols i)
    | some symbol =>
      let note : List Piece := if comments then [.note i.opcode i.position] else []
      .ok (note ++ [.symbols symbol (count i)]) ()
  finish _ := .ok [] []

/-- The source text of a stream, in pieces. -/
def emission (options : EmitOptions) (code : List Instruction) : Emission Piece :=
  (emitter options.comments).emit code

end Symbols

end TapeCompiler
