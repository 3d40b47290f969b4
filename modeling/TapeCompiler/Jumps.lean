/-
TapeCompiler.Jumps — where the labels of a stream lead.

The table is made in one walk over the stream. A label has a start, which
is where a `loopEnd` goes back to, and an end, which is where a `loopStart`
or a `guard` skips to.

* `loopStart` sets the start of its label, `loopEnd` the end.
* A `loopEnd` whose label has no start yet is reported, and goes back to
  the beginning of the stream.
* A `label` instruction is start and end of a label that is new.
-/
import TapeCompiler.Instruction
import Std.Data.HashMap

namespace TapeCompiler

/-- Both ends of a label, as indices of the stream. -/
structure Jump where
  start : Option Nat := none
  stop : Option Nat := none
  deriving DecidableEq, Repr, Inhabited

/-- The ends of every label of a stream. -/
abbrev JumpTable := Std.HashMap Int Jump

namespace JumpTable

/-- The remark about a `loopEnd` before any start of its label. -/
def unmatched (i : Instruction) : Warning := ⟨"Unmatched jump label", i.position⟩

/-- The table and the remarks so far, after instruction `i` at `index`. -/
def enter (table : JumpTable) (warnings : Array Warning) (index : Nat) (i : Instruction) :
    JumpTable × Array Warning :=
  match i.opcode with
  | .loopStart =>
    (table.insert i.value { table.getD i.value {} with start := some index }, warnings)
  | .loopEnd =>
    match (table.getD i.value {}).start with
    | some start => (table.insert i.value ⟨some start, some index⟩, warnings)
    | none => (table.insert i.value ⟨some 0, some index⟩, warnings.push (unmatched i))
  | .label => (table.insertIfNew i.value ⟨some index, some index⟩, warnings)
  | _ => (table, warnings)

/-- Walks the rest of a stream, which starts at `index`. -/
def walk (table : JumpTable) (warnings : Array Warning) (index : Nat) :
    List Instruction → JumpTable × Array Warning
  | [] => (table, warnings)
  | i :: rest =>
    let (table, warnings) := table.enter warnings index i
    walk table warnings (index + 1) rest

/-- The table of a whole stream, and the remarks about it. -/
def ofStream (code : List Instruction) : JumpTable × Array Warning :=
  walk {} #[] 0 code

/-- The index that a skip forward to this label leads to. -/
def stop? (table : JumpTable) (label : Int) : Option Nat :=
  table[label]?.bind Jump.stop

/-- The index that a jump back to this label leads to. -/
def start? (table : JumpTable) (label : Int) : Option Nat :=
  table[label]?.bind Jump.start

end JumpTable

end TapeCompiler
