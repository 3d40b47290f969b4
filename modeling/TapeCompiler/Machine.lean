/-
TapeCompiler.Machine — running an instruction stream on a tape.

A `Machine` is a store and a place in the stream. `Program.perform`
carries out one instruction and `Program.resume` repeats that until the
stream ends, the step limit is reached or something fails.

* A jump whose label has no target is reported and falls through.
* The step counter has 64 bits. `resume` recurses on how often it can still
  be raised, so a run without a limit is total as well.
-/
import TapeCompiler.Store
import TapeCompiler.Jumps

namespace TapeCompiler

/-! ## 1. Machines -/

/-- A tape machine in the middle of a stream. -/
structure Machine extends Store where
  /-- How many instructions were carried out so far. -/
  steps : Nat := 0
  /-- The index of the next instruction. -/
  counter : Nat := 0
  deriving Repr, Inhabited

/-- How a run ended that did not break off. -/
inductive Outcome where
  | completed
  | outOfSteps
  deriving DecidableEq, Repr, Inhabited

namespace Machine

/-- A machine with a tape of zeros. -/
def blank (size : Nat) : Machine := { tape := Array.replicate size 0 }

/-- Goes on to the next instruction. -/
def next (m : Machine) : Machine := { m with counter := m.counter + 1 }

/-- Goes on at a given instruction. -/
def goTo (m : Machine) (index : Nat) : Machine := { m with counter := index }

/-- Skips to the target of a jump; a jump without target falls through. -/
def jump (m : Machine) (target : Option Nat) (i : Instruction) : Machine :=
  match target with
  | some index => m.goTo index
  | none =>
    let message := s!"No jump target for label @{i.value}"
    { m with toStore := m.toStore.warn message i.position }.next

end Machine

/-! ## 2. Programs -/

/-- A stream made ready to run. -/
structure Program where
  code : Array Instruction
  jumps : JumpTable
  width : Width
  /-- The step count at which a run stops. -/
  limit : Option Nat := none

namespace Program

/-- Carries out one instruction. -/
def perform (p : Program) (i : Instruction) (m : Machine) : Except Crash Machine :=
  match i.opcode with
  | .loopStart | .guard => do
    let value ← m.cell 0 i.position
    if value = 0 then return m.jump (p.jumps.stop? i.value) i else return m.next
  | .loopEnd => do
    let value ← m.cell 0 i.position
    if value = 0 then return m.next else return m.jump (p.jumps.start? i.value) i
  | _ => do
    let store ← i.effect p.width m.toStore
    return { m with toStore := store }.next

/-- The step limit is reached. -/
def exhausted (p : Program) (m : Machine) : Bool :=
  match p.limit with
  | none => false
  | some limit => limit ≤ m.steps

/-- Runs on from here; the step counter can be raised `headroom` times. -/
def resume (p : Program) (headroom : Nat) (m : Machine) : Except Crash (Outcome × Machine) :=
  match p.code[m.counter]? with
  | none => .ok (.completed, m)
  | some i =>
    if p.exhausted m then .ok (.outOfSteps, m)
    else
      match headroom with
      | 0 => .error (m.crash (.overflow .add))
      | headroom + 1 =>
        match p.perform i { m with steps := m.steps + 1 } with
        | .error crash => .error crash
        | .ok m => p.resume headroom m

end Program

/-- Runs a stream from its first instruction, on the tape, pointer, step
count and channels of the machine; the step counter can be raised
`headroom` times. -/
def Machine.executeWithin (headroom : Nat) (m : Machine) (code : List Instruction) (width : Width)
    (limit : Option Nat) : Except Crash (Outcome × Machine) :=
  let (jumps, warnings) := JumpTable.ofStream code
  let program : Program := { code := code.toArray, jumps, width, limit }
  program.resume headroom { m with counter := 0, warnings := m.warnings ++ warnings }

/-- Runs a stream with a step counter of 64 bits. -/
def Machine.execute (m : Machine) (code : List Instruction) (width : Width)
    (limit : Option Nat) : Except Crash (Outcome × Machine) :=
  m.executeWithin (Size.greatest - m.steps) code width limit

end TapeCompiler
