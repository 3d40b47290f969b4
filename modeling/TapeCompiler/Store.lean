/-
TapeCompiler.Store — the tape, and what single instructions do to it.

A `Store` is a tape with a pointer, the channels of the program and the
remarks so far. `Instruction.effect` is what an instruction does to it;
where the run goes on afterwards is no concern of the store.

* The tape has two ends. An instruction that touches a cell beyond them
  fails, but the pointer itself may stand anywhere.
* Cells wrap at the cell width, the pointer at 64 bits.
* Reading at the end of the input leaves the cell as it is.
-/
import TapeCompiler.Width
import TapeCompiler.Channel
import TapeCompiler.Instruction

namespace TapeCompiler

/-! ## 1. Stores and failures -/

/-- What a program works on. -/
structure Store where
  /-- The cells, first to last. -/
  tape : Array Nat
  /-- The index of the current cell, which may lie off the tape. -/
  pointer : Int := 0
  warnings : Array Warning := #[]
  input : Input := []
  sink : Sink := {}
  deriving Repr, Inhabited

/-- Why a run broke off. -/
inductive RunFailure where
  | outOfBounds (index : Int) (position : Option Position)
  | output (failure : WriteFailure)
  | overflow (cause : Overflow)
  deriving DecidableEq, Repr, Inhabited

/-- The report of a failure. -/
def RunFailure.message : RunFailure → String
  | .outOfBounds index position =>
    s!"cell {index} accessed at {Position.describe position} is outside the tape"
  | .output failure => "could not write program output: " ++ failure.message
  | .overflow cause => cause.message

/-- A run that broke off, with all it had written. -/
structure Crash where
  failure : RunFailure
  sink : Sink
  deriving Repr, Inhabited

/-! ## 2. Cells and channels -/

namespace Store

/-- Breaks off here. -/
def crash (s : Store) (failure : RunFailure) : Crash := ⟨failure, s.sink⟩

/-- The same store with one more remark. -/
def warn (s : Store) (message : String) (position : Option Position) : Store :=
  { s with warnings := s.warnings.push ⟨message, position⟩ }

/-- The index of the cell at a distance from the pointer. -/
def address (s : Store) (offset : Int) : Int :=
  Operand.wrap (s.pointer + offset)

/-- The index lies on the tape. -/
def OnTape (s : Store) (index : Int) : Prop :=
  0 ≤ index ∧ index.toNat < s.tape.size

instance decidableOnTape (s : Store) (index : Int) : Decidable (s.OnTape index) :=
  inferInstanceAs (Decidable (_ ∧ _))

/-- The cell at a distance from the pointer. -/
def cell (s : Store) (offset : Int) (position : Option Position) : Except Crash Nat :=
  let index := s.address offset
  if s.OnTape index then .ok (s.tape.getD index.toNat 0)
  else .error (s.crash (.outOfBounds index position))

/-- Sets the cell at a distance from the pointer. -/
def setCell (s : Store) (offset : Int) (value : Nat) (position : Option Position) :
    Except Crash Store :=
  let index := s.address offset
  if s.OnTape index then .ok { s with tape := s.tape.setIfInBounds index.toNat value }
  else .error (s.crash (.outOfBounds index position))

/-- Changes the cell at a distance from the pointer. -/
def update (s : Store) (offset : Int) (f : Nat → Nat) (position : Option Position) :
    Except Crash Store := do
  let value ← s.cell offset position
  s.setCell offset (f value) position

/-- Moves the pointer. -/
def move (s : Store) (distance : Int) : Store :=
  { s with pointer := Operand.wrap (s.pointer + distance) }

/-- Writes the low byte of a cell value. -/
def emit (s : Store) (value : Nat) : Except Crash Store :=
  if s.sink.room 1 = 1 then .ok { s with sink := s.sink.push (UInt8.ofNat value) }
  else .error (s.crash (.output s.sink.refusal))

/-- Asks for the output to be passed on. -/
def flush (s : Store) : Except Crash Store :=
  match s.sink.flush with
  | .ok () => .ok s
  | .error failure => .error (s.crash (.output failure))

/-! ## 3. Repeated reads and writes -/

/-- Writes the current cell `count` times. -/
def writeTimes (s : Store) (position : Option Position) : Nat → Except Crash Store
  | 0 => .ok s
  | count + 1 => do
    let value ← s.cell 0 position
    let s ← s.emit value
    s.writeTimes position count

/-- Reads once; the current cell changes only if a byte arrives. -/
def readOnce (s : Store) (position : Option Position) : Except Crash Store :=
  let (received, input) := Input.receive s.input
  let s := { s with input }
  match received with
  | .byte value => s.setCell 0 value.toNat position
  | .nothing => .ok s
  | .failed reason => .ok (s.warn ("Failed to read input: " ++ reason) position)

/-- Reads `count` times. -/
def readTimes (s : Store) (position : Option Position) : Nat → Except Crash Store
  | 0 => .ok s
  | count + 1 => do
    let s ← s.readOnce position
    s.readTimes position count

/-! ## 4. Walks to a zero cell -/

end Store

/-- Where a walk over the tape goes. -/
inductive Direction where
  | left
  | right
  deriving DecidableEq, Repr, Inhabited

/-- One cell in a direction. -/
def Direction.step : Direction → Int
  | .left => -1
  | .right => 1

namespace Store

/-- A bound on the cells that a walk can still meet, the current one
included; it is zero off the tape. -/
def ahead (s : Store) (direction : Direction) : Nat :=
  let index := s.address 0
  if s.OnTape index then
    match direction with
    | .left => (index + 1).toNat
    | .right => (Operand.greatest + 1 - index).toNat
  else 0

theorem cell_eq_ok_iff {s : Store} {offset : Int} {position : Option Position} {value : Nat} :
    s.cell offset position = .ok value ↔
      s.OnTape (s.address offset) ∧ s.tape.getD (s.address offset).toNat 0 = value := by
  unfold cell
  by_cases h : s.OnTape (s.address offset) <;> simp [h]

theorem emit_eq_ok_iff {s s' : Store} {value : Nat} :
    s.emit value = .ok s' ↔
      s.sink.room 1 = 1 ∧ { s with sink := s.sink.push (UInt8.ofNat value) } = s' := by
  unfold emit
  by_cases h : s.sink.room 1 = 1 <;> simp [h]

theorem address_move (s : Store) (distance : Int) :
    (s.move distance).address 0 = Operand.wrap (s.address 0 + distance) := by
  simp only [address, move, Operand.wrap, Int.add_zero, Int.bmod_bmod]
  rw [Int.bmod_add_bmod]

/-- A step of a walk leaves fewer cells ahead: behind the last word there
is no cell, so a walk to the right cannot come round. -/
theorem ahead_move_lt {s : Store} (direction : Direction) (h : s.OnTape (s.address 0)) :
    (s.move direction.step).ahead direction < s.ahead direction := by
  have hrange := Operand.wrap_inRange (s.pointer + 0)
  have hnext := Operand.wrap_inRange (s.address 0 + direction.step)
  have hstay : Operand.InRange (s.address 0 + direction.step) →
      Operand.wrap (s.address 0 + direction.step) = s.address 0 + direction.step :=
    Operand.wrap_of_inRange
  rw [← address] at hrange
  unfold Operand.InRange Operand.least Operand.greatest at *
  unfold ahead
  simp only [address_move, h, if_true, Operand.greatest]
  obtain ⟨hlow, hhigh⟩ := h
  split
  · rename_i hon
    obtain ⟨hlow', -⟩ := hon
    cases direction with
    | left =>
      simp only [Direction.step] at *
      have := hstay (by omega)
      omega
    | right =>
      simp only [Direction.step] at *
      by_cases hlast : s.address 0 = 9223372036854775807
      · rw [hlast] at hlow'
        simp [Operand.wrap, Int.bmod] at hlow'
      · have := hstay (by omega)
        omega
  · cases direction <;> simp only <;> omega

/-- Moves to the nearest zero cell in a direction. -/
def scan (s : Store) (direction : Direction) (position : Option Position) :
    Except Crash Store :=
  match h : s.cell 0 position with
  | .error crash => .error crash
  | .ok value =>
    if value = 0 then .ok s
    else
      have := ahead_move_lt direction (cell_eq_ok_iff.1 h).1
      (s.move direction.step).scan direction position
termination_by s.ahead direction

/-- Writes cells from the current one on up to a zero cell, and stays there. -/
def printRun (s : Store) (position : Option Position) : Except Crash Store :=
  match h : s.cell 0 position with
  | .error crash => .error crash
  | .ok value =>
    if value = 0 then s.flush
    else
      match he : s.emit value with
      | .error crash => .error crash
      | .ok written =>
        have : (written.move 1).ahead .right < s.ahead .right := by
          obtain ⟨-, rfl⟩ := emit_eq_ok_iff.1 he
          exact ahead_move_lt .right (cell_eq_ok_iff.1 h).1
        (written.move 1).printRun position
termination_by s.ahead .right

end Store

/-! ## 5. Instructions -/

/-- What an instruction does to the store. Jumps only look at it. -/
def Instruction.effect (i : Instruction) (width : Width) (s : Store) : Except Crash Store :=
  let position := i.position
  match i.opcode with
  | .add => s.update 0 (fun value => (value + width.truncate i.value) % width.modulus) position
  | .sub => s.update 0 (fun value => (value + width.truncate (-i.value)) % width.modulus) position
  | .right | .left =>
    match i.displacement with
    | .ok distance => .ok (s.move distance)
    | .error cause => .error (s.crash (.overflow cause))
  | .write => do
    let s ← s.writeTimes position i.value.toNat
    s.flush
  | .read => s.readTimes position i.value.toNat
  | .mul =>
    if i.value = -1 ∧ i.offset = 0 then s.setCell 0 0 position
    else do
      let source ← s.cell 0 position
      s.update i.offset
        (fun target => (target + source * width.truncate i.value) % width.modulus) position
  | .div =>
    if i.value ≤ 0 then .ok (s.warn "Division by a non-positive value" position)
    else s.update i.offset (fun value => value / i.value.toNat) position
  | .store => s.setCell i.offset (width.truncate i.value) position
  | .scanRight => s.scan .right position
  | .scanLeft => s.scan .left position
  | .printRun => s.printRun position
  | .loopStart | .loopEnd | .guard | .label => .ok s

end TapeCompiler
