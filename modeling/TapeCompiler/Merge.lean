/-
TapeCompiler.Merge — merging runs of equal and opposite instructions.

One pass goes over the stream from left to right and collects runs.

* Neighbours with the same opcode among `write`, `read`, `add`, `sub`,
  `right` and `left` become one instruction with the sum of their counts.
* A run of cell or pointer steps also takes in one neighbour that undoes
  it. The run ends there: a total below zero turns it into its opposite,
  and a total of zero drops it.

A pass may bring new neighbours together, so `Stream.mergeAll` repeats it
until the stream no longer shrinks, and tallies the passes.
-/
import TapeCompiler.Instruction

namespace TapeCompiler

/-! ## 1. Runs -/

/-- The opcodes whose neighbours are merged. -/
def Opcode.isCounted : Opcode → Bool
  | .write | .read | .add | .sub | .right | .left => true
  | _ => false

/-- A run under way: its first instruction and the count so far. -/
structure Run where
  first : Instruction
  count : Int
  deriving DecidableEq, Repr, Inhabited

/-- The instruction a run amounts to, if any. Reads and writes stay whatever
their count; a step is written with a positive count, or not at all. -/
def Run.total (r : Run) : Except Overflow (Option Instruction) :=
  match r.first.opcode.opposite? with
  | none => .ok (some { r.first with value := r.count })
  | some opposite =>
    if r.count > 0 then .ok (some { r.first with value := r.count })
    else if r.count < 0 then do
      let count ← Operand.neg r.count
      return some { r.first with opcode := opposite, value := count }
    else .ok none

/-! ## 2. One pass -/

/-- A pass under way: the finished part and the run at its end. -/
structure Merging where
  output : Array Instruction := #[]
  run : Option Run := none
  deriving Repr, Inhabited

namespace Merging

/-- Ends the run, if there is one. -/
def flush (m : Merging) : Except Overflow (Array Instruction) :=
  match m.run with
  | none => .ok m.output
  | some r => do
    match ← r.total with
    | none => return m.output
    | some i => return m.output.push i

/-- Starts over at instruction `i`, which no run takes in. -/
def start (output : Array Instruction) (i : Instruction) : Merging :=
  if i.opcode.isCounted then { output, run := some ⟨i, i.value⟩ }
  else { output := output.push i, run := none }

/-- The pass after one more instruction. -/
def feed (m : Merging) (i : Instruction) : Except Overflow Merging :=
  match m.run with
  | none => .ok (start m.output i)
  | some r =>
    if i.opcode = r.first.opcode then do
      let count ← Operand.add r.count i.value
      return { m with run := some { r with count } }
    else if r.first.opcode.opposite? = some i.opcode then do
      let count ← Operand.sub r.count i.value
      let output ← flush { m with run := some { r with count } }
      return { output, run := none }
    else do
      let output ← m.flush
      return start output i

end Merging

/-- The stream after one pass. -/
def Stream.merge (code : List Instruction) : Except Overflow (List Instruction) := do
  let m ← code.foldlM Merging.feed {}
  let output ← m.flush
  return output.toList

/-! ## 3. To the end -/

/-- Repeats the pass on a stream for as long as the stream shrinks; `passes`
is how many passes were made before. -/
def Stream.mergeOn (passes : Nat) (code : List Instruction) :
    Except Overflow (List Instruction) :=
  match Stream.merge code with
  | .error e => .error e
  | .ok next =>
    if next.length < code.length then
      match Tally.next passes with
      | .error e => .error e
      | .ok passes => Stream.mergeOn passes next
    else .ok code
termination_by code.length

/-- The stream after one pass and as many more as shrink it. -/
def Stream.mergeAll (code : List Instruction) : Except Overflow (List Instruction) := do
  let code ← Stream.merge code
  Stream.mergeOn 1 code

end TapeCompiler
