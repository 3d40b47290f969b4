/-
TapeCompiler.Flatten — turning counting loops into straight-line code.

A loop is *simple* when its body only steps cells and the pointer, and the
pointer ends where it started. Such a loop runs a known number of times, so
`[->+++>-<<]` with label `n` becomes

    guard n;  mul 3 at 1;  mul -1 at 2;  label n;  mul -1 at 0

where the last instruction clears the counter. Further rules:

* a loop that starts where another one ended finds a zero cell and is
  dropped;
* a loop over one cell step clears the cell, and a store to that cell just
  before it is dropped;
* a cleared cell that is stepped next is stored to directly;
* a counter that goes down by `k > 1` is first divided by `k`;
* a target may have instructions of its own for scan and print loops.

`Stream.flatten` works through the stream from left to right in steps of
`Flattener.step`, and fails on a loop that is never closed.
-/
import TapeCompiler.Instruction
import TapeCompiler.Target

namespace TapeCompiler

/-! ## 1. Counters and errors -/

/-- How often each rule was used. -/
structure LoopStats where
  deadLoops : Nat := 0
  clearLoops : Nat := 0
  multiplyLoops : Nat := 0
  divisions : Nat := 0
  foldedStores : Nat := 0
  removedStores : Nat := 0
  scans : Nat := 0
  prints : Nat := 0
  deriving DecidableEq, Repr, Inhabited

/-- Why a stream cannot be flattened. -/
inductive FlattenError where
  | unmatchedLoop (label : Int) (position : Option Position)
  /-- Something else than a step in a body that was taken for a simple one. -/
  | unexpectedOpcode (opcode : Opcode) (position : Option Position)
  | overflow (cause : Overflow)
  deriving DecidableEq, Repr, Inhabited

/-- The report of a failure. -/
def FlattenError.message : FlattenError → String
  | .unmatchedLoop label position =>
    s!"loop @{label} opened at {Position.describe position} has no matching close"
  | .unexpectedOpcode opcode position =>
    s!"internal error: unexpected {opcode.mnemonic} in a simple loop body at " ++
      Position.describe position
  | .overflow cause => cause.message

/-- A failure of arithmetic as a failure of the pass. -/
def FlattenError.ofOverflow {α : Type} : Except Overflow α → Except FlattenError α
  | .ok a => .ok a
  | .error cause => .error (.overflow cause)

theorem FlattenError.ofOverflow_eq_ok_iff {α : Type} {x : Except Overflow α} {a : α} :
    FlattenError.ofOverflow x = .ok a ↔ x = .ok a := by
  cases x <;> simp [FlattenError.ofOverflow]

theorem FlattenError.ofOverflow_eq_error_iff {α : Type} {x : Except Overflow α}
    {e : FlattenError} :
    FlattenError.ofOverflow x = .error e ↔ ∃ cause, x = .error cause ∧ e = .overflow cause := by
  cases x <;> simp [FlattenError.ofOverflow, eq_comm]

/-! ## 2. The parts of a loop -/

/-- A stream behind an opening bracket, cut at the bracket's partner. -/
structure LoopParts where
  body : List Instruction
  close : Instruction
  rest : List Instruction
  deriving DecidableEq, Repr, Inhabited

/-- Cuts a stream at the `loopEnd` that closes `depth` inner loops and then
the outer one; `body` holds what was passed, latest first. -/
def LoopParts.find? (depth : Nat) (body : List Instruction) :
    List Instruction → Option LoopParts
  | [] => none
  | i :: rest =>
    match i.opcode with
    | .loopStart => find? (depth + 1) (i :: body) rest
    | .loopEnd =>
      match depth with
      | 0 => some ⟨body.reverse, i, rest⟩
      | depth + 1 => find? depth (i :: body) rest
    | _ => find? depth (i :: body) rest

/-- Cutting loses nothing: the parts in order are the stream. -/
theorem LoopParts.append_of_find? {depth : Nat} {body code : List Instruction} {parts : LoopParts}
    (h : LoopParts.find? depth body code = some parts) :
    body.reverse ++ code = parts.body ++ parts.close :: parts.rest := by
  induction code generalizing depth body with
  | nil => simp [find?] at h
  | cons i rest ih =>
    unfold find? at h
    split at h
    · simpa using ih h
    · split at h
      · cases h; rfl
      · simpa using ih h
    · simpa using ih h

/-- What follows the loop is shorter than what the loop was cut from. -/
theorem LoopParts.length_rest_lt {code : List Instruction} {parts : LoopParts}
    (h : LoopParts.find? 0 [] code = some parts) : parts.rest.length < code.length := by
  have := congrArg List.length (append_of_find? h)
  simp at this
  omega

/-! ## 3. Simple loops -/

/-- Where the pointer ends, started at `pointer`, if the body only steps
cells and the pointer. -/
def finalPointer? (pointer : Int) : List Instruction → Except Overflow (Option Int)
  | [] => .ok (some pointer)
  | i :: rest =>
    match i.opcode with
    | .right | .left => do
      let distance ← i.displacement
      let pointer ← Operand.add pointer distance
      finalPointer? pointer rest
    | .add | .sub => finalPointer? pointer rest
    | _ => .ok none

/-- The body only steps cells and the pointer, and the pointer comes back. -/
def isSimpleBody (body : List Instruction) : Except Overflow Bool := do
  let pointer ← finalPointer? 0 body
  return pointer == some 0

/-- By how much one run through the body lowers the counter, which is the
cell at pointer 0; `none` if the body also raises it. -/
def counterDrop? (pointer drop : Int) : List Instruction → Except Overflow (Option Int)
  | [] => .ok (some drop)
  | i :: rest =>
    match i.opcode with
    | .right | .left => do
      let distance ← i.displacement
      let pointer ← Operand.add pointer distance
      counterDrop? pointer drop rest
    | .add => if pointer = 0 then .ok none else counterDrop? pointer drop rest
    | .sub =>
      if pointer = 0 then do
        let drop ← Operand.add drop i.value
        counterDrop? pointer drop rest
      else counterDrop? pointer drop rest
    | _ => counterDrop? pointer drop rest

/-- What one run through the body adds to the other cells, each step as a
multiple of the counter; `done` holds the steps so far, latest first. The
body of a loop that counts down has nothing else but moves, so all else is
refused. -/
def products (pointer : Int) (done : List Instruction) :
    List Instruction → Except FlattenError (List Instruction)
  | [] => .ok done.reverse
  | i :: rest =>
    match i.opcode with
    | .right | .left => do
      let distance ← FlattenError.ofOverflow i.displacement
      let pointer ← FlattenError.ofOverflow (Operand.add pointer distance)
      products pointer done rest
    | .add =>
      if pointer = 0 then .error (.unexpectedOpcode i.opcode i.position)
      else products pointer (⟨.mul, i.value, pointer, i.position⟩ :: done) rest
    | .sub =>
      if pointer = 0 then products pointer done rest
      else do
        let factor ← FlattenError.ofOverflow (Operand.neg i.value)
        products pointer (⟨.mul, factor, pointer, i.position⟩ :: done) rest
    | _ => .error (.unexpectedOpcode i.opcode i.position)

/-- The instruction that stands for a whole scan or print loop. -/
def patternOpcode? (target : Target) (body : List Instruction) : Option Opcode :=
  match body with
  | [step] =>
    if target.hasScan && step.value == 1 then
      match step.opcode with
      | .right => some .scanRight
      | .left => some .scanLeft
      | _ => none
    else none
  | [out, step] =>
    if target.hasPrint && out.opcode == .write && out.value == 1
        && step.opcode == .right && step.value == 1 then
      some .printRun
    else none
  | _ => none

/-! ## 4. The flattener -/

/-- A pass under way. -/
structure Flattener where
  /-- The new stream, latest instruction first. -/
  output : List Instruction := []
  /-- The last thing handled was a loop, so the current cell is zero. -/
  cellIsZero : Bool := false
  stats : LoopStats := {}
  deriving Repr, Inhabited

namespace Flattener

/-- Takes an instruction over as it is. -/
def keep (r : Flattener) (i : Instruction) : Flattener :=
  { r with output := i :: r.output, cellIsZero := i.opcode == .loopEnd }

/-- Drops a loop that is never entered. -/
def dropDead (r : Flattener) : Flattener :=
  { r with stats := { r.stats with deadLoops := r.stats.deadLoops + 1 } }

/-- Writes the one instruction that stands for a scan or print loop. -/
def putPattern (r : Flattener) (opcode : Opcode) (start : Instruction) : Flattener :=
  let stats :=
    if opcode = .printRun then { r.stats with prints := r.stats.prints + 1 }
    else { r.stats with scans := r.stats.scans + 1 }
  { output := ⟨opcode, 0, 0, start.position⟩ :: r.output, cellIsZero := true, stats }

/-- The instruction only changes the current cell, so a clear undoes it. -/
def overwritten (i : Instruction) : Bool :=
  match i.opcode with
  | .add | .sub => true
  | .store => i.offset == 0
  | _ => false

/-- Handles a loop over a single cell step: a store just before it is dead. -/
def clear (r : Flattener) : Flattener :=
  let stats := { r.stats with clearLoops := r.stats.clearLoops + 1 }
  match r.output with
  | previous :: older =>
    if overwritten previous then
      { r with output := older, stats := { stats with removedStores := stats.removedStores + 1 } }
    else { r with stats }
  | [] => { r with stats }

/-- Writes the guarded products of a loop whose counter goes down by `drop`. -/
def multiply (r : Flattener) (start : Instruction) (drop : Int) (terms : List Instruction)
    (close : Instruction) : Flattener :=
  let division : List Instruction :=
    if drop = 1 then [] else [⟨.div, drop, 0, start.position⟩]
  let code : List Instruction :=
    ⟨.guard, start.value, 0, start.position⟩ :: division ++ terms
      ++ [⟨.label, close.value, 0, close.position⟩]
  { r with
    output := code.reverse ++ r.output
    stats := { r.stats with
      multiplyLoops := r.stats.multiplyLoops + 1
      divisions := r.stats.divisions + division.length } }

/-- Flattens a simple loop into products, if its counter goes down. -/
def multiply? (r : Flattener) (start : Instruction) (parts : LoopParts) :
    Except FlattenError (Option Flattener) := do
  match ← FlattenError.ofOverflow (counterDrop? 0 0 parts.body) with
  | none => return none
  | some drop =>
    if drop = 0 then return none
    else
      let terms ← products 0 [] parts.body
      return some (r.multiply start drop terms parts.close)

/-- Flattens a simple loop up to its last step, the clearing of the counter;
`none` if the loop has to stay as it is. -/
def flatten? (r : Flattener) (start : Instruction) (parts : LoopParts) :
    Except FlattenError (Option Flattener) :=
  match parts.body with
  | [single] =>
    if single.opcode = .add ∨ single.opcode = .sub then .ok (some r.clear)
    else r.multiply? start parts
  | _ => r.multiply? start parts

/-- The constant in the current cell after a clear and the instruction
`next`, if that one steps the cell. -/
def storedValue? (next : Instruction) : Except Overflow (Option Int) :=
  match next.opcode with
  | .add => .ok (some next.value)
  | .sub => do
    let value ← Operand.neg next.value
    return some value
  | _ => .ok none

/-- Clears the counter of a flattened loop. -/
def putClear (r : Flattener) (start : Instruction) : Flattener :=
  { r with output := ⟨.mul, -1, 0, start.position⟩ :: r.output, cellIsZero := true }

/-- Stores a constant in the counter of a flattened loop. -/
def putStore (r : Flattener) (value : Int) (next : Instruction) : Flattener :=
  { output := ⟨.store, value, 0, next.position⟩ :: r.output
    cellIsZero := false
    stats := { r.stats with foldedStores := r.stats.foldedStores + 1 } }

/-- Ends a flattened loop; gives the flattener and what is left to handle. -/
def finishCell (r : Flattener) (start : Instruction) (rest : List Instruction) :
    Except Overflow (Flattener × List Instruction) :=
  match rest with
  | [] => .ok (r.putClear start, [])
  | next :: rest => do
    match ← storedValue? next with
    | some value => return (r.putStore value next, rest)
    | none => return (r.putClear start, next :: rest)

/-- Handles a loop from its opening bracket on; `rest` follows that bracket. -/
def stepLoop (target : Target) (r : Flattener) (start : Instruction) (rest : List Instruction)
    (parts : LoopParts) : Except FlattenError (Flattener × List Instruction) :=
  if r.cellIsZero then .ok (r.dropDead, parts.rest)
  else if parts.body.isEmpty then .ok (r.keep start, rest)
  else
    match patternOpcode? target parts.body with
    | some opcode => .ok (r.putPattern opcode start, parts.rest)
    | none => do
      if ← FlattenError.ofOverflow (isSimpleBody parts.body) then
        match ← r.flatten? start parts with
        | some r => FlattenError.ofOverflow (r.finishCell start parts.rest)
        | none => return (r.keep start, rest)
      else return (r.keep start, rest)

/-- Handles the instruction `i` at the front of a stream, before `rest`. -/
def step (target : Target) (r : Flattener) (i : Instruction) (rest : List Instruction) :
    Except FlattenError (Flattener × List Instruction) :=
  if i.opcode = .loopStart then
    match LoopParts.find? 0 [] rest with
    | none => .error (.unmatchedLoop i.value i.position)
    | some parts => r.stepLoop target i rest parts
  else .ok (r.keep i, rest)

end Flattener

/-! ## 5. Every step makes progress -/

theorem Flattener.length_le_of_finishCell {r r' : Flattener} {start : Instruction}
    {rest rest' : List Instruction} (h : r.finishCell start rest = .ok (r', rest')) :
    rest'.length ≤ rest.length := by
  cases rest with
  | nil =>
    cases h
    exact Nat.le_refl _
  | cons next rest =>
    obtain ⟨value, _, h⟩ := bind_eq_ok_iff.1 h
    cases value with
    | some value =>
      cases h
      exact Nat.le_succ _
    | none =>
      cases h
      exact Nat.le_refl _

theorem Flattener.length_le_of_stepLoop {target : Target} {r r' : Flattener} {start : Instruction}
    {rest rest' : List Instruction} {parts : LoopParts}
    (hp : parts.rest.length < rest.length)
    (h : r.stepLoop target start rest parts = .ok (r', rest')) :
    rest'.length ≤ rest.length := by
  unfold stepLoop at h
  split at h
  · cases h
    exact Nat.le_of_lt hp
  split at h
  · cases h
    exact Nat.le_refl _
  split at h
  · cases h
    exact Nat.le_of_lt hp
  obtain ⟨simple, _, h⟩ := bind_eq_ok_iff.1 h
  cases simple with
  | false =>
    cases h
    exact Nat.le_refl _
  | true =>
    obtain ⟨flat, _, h⟩ := bind_eq_ok_iff.1 h
    cases flat with
    | none =>
      cases h
      exact Nat.le_refl _
    | some flat =>
      rw [FlattenError.ofOverflow_eq_ok_iff] at h
      exact Nat.le_trans (length_le_of_finishCell h) (Nat.le_of_lt hp)

/-- A step never leaves more to do than stood behind its instruction. -/
theorem Flattener.length_le_of_step {target : Target} {r r' : Flattener} {i : Instruction}
    {rest rest' : List Instruction} (h : r.step target i rest = .ok (r', rest')) :
    rest'.length ≤ rest.length := by
  unfold step at h
  split at h
  · split at h
    · cases h
    · rename_i parts hp
      exact length_le_of_stepLoop (LoopParts.length_rest_lt hp) h
  · cases h; exact Nat.le_refl _

/-! ## 6. The pass -/

/-- Works a stream off, step by step. -/
def Flattener.run (target : Target) (r : Flattener) :
    List Instruction → Except FlattenError Flattener
  | [] => .ok r
  | i :: rest =>
    match h : r.step target i rest with
    | .error e => .error e
    | .ok (r', rest') =>
      have : rest'.length ≤ rest.length := Flattener.length_le_of_step h
      Flattener.run target r' rest'
termination_by code => code.length

/-- The stream with its simple loops flattened, and what was done. -/
def Stream.flattenWithStats (target : Target) (code : List Instruction) :
    Except FlattenError (List Instruction × LoopStats) := do
  let r ← Flattener.run target {} code
  return (r.output.reverse, r.stats)

/-- The stream with its simple loops flattened. -/
def Stream.flatten (target : Target) (code : List Instruction) :
    Except FlattenError (List Instruction) := do
  let (code, _) ← Stream.flattenWithStats target code
  return code

end TapeCompiler
