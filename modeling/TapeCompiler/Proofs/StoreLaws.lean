/-
TapeCompiler.Proofs.StoreLaws — what an instruction can do to a store.

`Instruction.effect` has sixteen cases, some with loops of their own.
`Instruction.changes_of_effect` says once what all of them amount to: a
sequence of the five elementary changes of `Store.Change`. An invariant of
stores is then checked on five cases, and on no instruction.

* `Store.Regular` collects what the soundness of the optimizers rests on:
  cells that fit the cell width, a pointer of 64 bits and a sink that takes
  everything.
* `Instruction.failure_of_effect` lists the ways to fail. On a regular
  store an access beyond the tape is left, and the one move to the left
  whose distance has no opposite.
-/
import TapeCompiler.Store
import Mathlib.Logic.Relation

namespace TapeCompiler

/-- A sequence of two steps fails if the first does, or else the second. -/
theorem bind_eq_error_iff {ε α β : Type} {x : Except ε α} {f : α → Except ε β} {e : ε} :
    (x >>= f) = .error e ↔ x = .error e ∨ ∃ a, x = .ok a ∧ f a = .error e := by
  cases x <;> simp [bind, Except.bind]

/-! ## 1. Cells -/

namespace Store

/-- A cell is out of reach exactly if it is not on the tape, and the failure
says where it would be. -/
theorem cell_eq_error_iff {s : Store} {offset : Int} {position : Option Position} {c : Crash} :
    s.cell offset position = .error c ↔
      ¬ s.OnTape (s.address offset) ∧
        ⟨.outOfBounds (s.address offset) position, s.sink⟩ = c := by
  unfold cell
  by_cases h : s.OnTape (s.address offset) <;> simp [h, crash]

/-- A cell on the tape can be set, and nothing else changes. -/
theorem setCell_eq_ok_iff {s s' : Store} {offset : Int} {value : Nat}
    {position : Option Position} :
    s.setCell offset value position = .ok s' ↔
      s.OnTape (s.address offset) ∧
        { s with tape := s.tape.setIfInBounds (s.address offset).toNat value } = s' := by
  unfold setCell
  by_cases h : s.OnTape (s.address offset) <;> simp [h]

theorem setCell_eq_error_iff {s : Store} {offset : Int} {value : Nat}
    {position : Option Position} {c : Crash} :
    s.setCell offset value position = .error c ↔
      ¬ s.OnTape (s.address offset) ∧
        ⟨.outOfBounds (s.address offset) position, s.sink⟩ = c := by
  unfold setCell
  by_cases h : s.OnTape (s.address offset) <;> simp [h, crash]

/-- A change of a cell is a change of the cell's value, if there is one. -/
theorem update_eq_setCell (s : Store) (offset : Int) (f : Nat → Nat)
    (position : Option Position) :
    s.update offset f position =
      s.setCell offset (f (s.tape.getD (s.address offset).toNat 0)) position := by
  unfold update cell setCell
  by_cases h : s.OnTape (s.address offset) <;> simp [h, bind, Except.bind]

theorem flush_eq_ok_iff {s s' : Store} :
    s.flush = .ok s' ↔ s.sink.flush = .ok () ∧ s = s' := by
  unfold flush
  split <;> simp_all

/-- A scan ends at a zero cell. -/
theorem scan_of_zero {s : Store} {position : Option Position} (h : s.cell 0 position = .ok 0)
    (direction : Direction) : s.scan direction position = .ok s := by
  rw [scan]
  split <;> simp_all

/-- At any other cell it moves on. -/
theorem scan_of_succ {s : Store} {position : Option Position} {value : Nat}
    (h : s.cell 0 position = .ok (value + 1)) (direction : Direction) :
    s.scan direction position = (s.move direction.step).scan direction position := by
  conv => lhs; rw [scan]
  split <;> simp_all

theorem scan_of_error {s : Store} {position : Option Position} {c : Crash}
    (h : s.cell 0 position = .error c) (direction : Direction) :
    s.scan direction position = .error c := by
  rw [scan]
  split <;> simp_all

/-- A run that is printed ends at a zero cell, with a flush. -/
theorem printRun_of_zero {s : Store} {position : Option Position}
    (h : s.cell 0 position = .ok 0) : s.printRun position = s.flush := by
  rw [printRun]
  split <;> simp_all

/-- Any other cell is written, and the next one comes. -/
theorem printRun_of_succ {s s₁ : Store} {position : Option Position} {value : Nat}
    (h : s.cell 0 position = .ok (value + 1)) (he : s.emit (value + 1) = .ok s₁) :
    s.printRun position = (s₁.move 1).printRun position := by
  conv => lhs; rw [printRun]
  split
  · simp_all
  · rename_i value' h'
    obtain rfl : value + 1 = value' := by simpa [h] using h'
    simp only [Nat.add_eq_zero_iff, Nat.one_ne_zero, and_false, if_false]
    split <;> simp_all

theorem printRun_of_error {s : Store} {position : Option Position} {c : Crash}
    (h : s.cell 0 position = .error c) : s.printRun position = .error c := by
  rw [printRun]
  split <;> simp_all

end Store

/-! ## 2. Elementary changes -/

/-- The remarks that an instruction makes about its operands or its input. -/
def Warning.IsRemark (message : String) : Prop :=
  message = "Division by a non-positive value" ∨
    ∃ reason, message = "Failed to read input: " ++ reason

namespace Store

/-- One elementary change of a store. A cell may get any value that fits the
width, or a smaller value than before. -/
inductive Change (w : Width) : Store → Store → Prop where
  | cell (s : Store) (index value : Nat)
      (fits : value < w.modulus ∨ value ≤ s.tape.getD index 0) :
      Change w s { s with tape := s.tape.setIfInBounds index value }
  | pointer (s : Store) (distance : Int) : Change w s (s.move distance)
  | output (s : Store) (byte : UInt8) : Change w s { s with sink := s.sink.push byte }
  | input (s : Store) (input : Input) : Change w s { s with input }
  | remark (s : Store) (message : String) (position : Option Position)
      (remark : Warning.IsRemark message) : Change w s (s.warn message position)

/-- Any number of elementary changes. -/
abbrev Changes (w : Width) : Store → Store → Prop := Relation.ReflTransGen (Change w)

/-- Setting a cell is one change, if the value fits. -/
theorem changes_of_setCell {w : Width} {s s' : Store} {offset : Int} {value : Nat}
    {position : Option Position}
    (fits : value < w.modulus ∨ value ≤ s.tape.getD (s.address offset).toNat 0)
    (h : s.setCell offset value position = .ok s') : Changes w s s' := by
  obtain ⟨-, rfl⟩ := setCell_eq_ok_iff.1 h
  exact .single (.cell s _ value fits)

theorem changes_of_emit {w : Width} {s s' : Store} {value : Nat} (h : s.emit value = .ok s') :
    Changes w s s' := by
  obtain ⟨-, rfl⟩ := emit_eq_ok_iff.1 h
  exact .single (.output s _)

theorem changes_of_flush {w : Width} {s s' : Store} (h : s.flush = .ok s') : Changes w s s' := by
  obtain ⟨-, rfl⟩ := flush_eq_ok_iff.1 h
  exact .refl

/-- Repeated writing is output, byte by byte. -/
theorem changes_of_writeTimes {w : Width} {position : Option Position} {count : Nat}
    {s s' : Store} (h : s.writeTimes position count = .ok s') : Changes w s s' := by
  induction count generalizing s with
  | zero =>
    cases h
    exact .refl
  | succ count ih =>
    obtain ⟨value, -, h⟩ := bind_eq_ok_iff.1 h
    obtain ⟨s₁, he, h⟩ := bind_eq_ok_iff.1 h
    exact (changes_of_emit he).trans (ih h)

/-- A read takes from the input. It then sets a cell, makes a remark, or does
nothing more. -/
theorem changes_of_readOnce {w : Width} {position : Option Position} {s s' : Store}
    (h : s.readOnce position = .ok s') : Changes w s s' := by
  unfold readOnce at h
  have hinput : Changes w s { s with input := (Input.receive s.input).2 } :=
    .single (.input s _)
  cases hr : (Input.receive s.input).1 with
  | byte value =>
    simp only [hr] at h
    have hvalue : value.toNat < w.modulus := by
      have := value.toNat_lt
      cases w <;> simp only [Width.modulus] <;> omega
    exact hinput.trans (changes_of_setCell (.inl hvalue) h)
  | nothing =>
    simp only [hr] at h
    cases h
    exact hinput
  | failed reason =>
    simp only [hr] at h
    cases h
    exact hinput.tail (.remark _ _ _ (.inr ⟨reason, rfl⟩))

theorem changes_of_readTimes {w : Width} {position : Option Position} {count : Nat}
    {s s' : Store} (h : s.readTimes position count = .ok s') : Changes w s s' := by
  induction count generalizing s with
  | zero =>
    cases h
    exact .refl
  | succ count ih =>
    obtain ⟨s₁, hr, h⟩ := bind_eq_ok_iff.1 h
    exact (changes_of_readOnce hr).trans (ih h)

/-- A scan moves, and does nothing else. -/
theorem changes_of_scan {w : Width} {direction : Direction} {position : Option Position}
    {s s' : Store} (h : s.scan direction position = .ok s') : Changes w s s' := by
  fun_induction scan s direction position with
  | case1 => cases h
  | case2 s =>
    cases h
    exact .refl
  | case3 s _ _ _ _ ih => exact .head (.pointer s _) (ih h)

/-- Printing a run writes and moves in turn. -/
theorem changes_of_printRun {w : Width} {position : Option Position} {s s' : Store}
    (h : s.printRun position = .ok s') : Changes w s s' := by
  fun_induction printRun s position with
  | case1 => cases h
  | case2 s => exact changes_of_flush h
  | case3 => cases h
  | case4 s _ _ _ written he _ ih =>
    exact (changes_of_emit he).trans (.head (.pointer written _) (ih h))

end Store

/-- **What an instruction can do**: elementary changes, and nothing else. -/
theorem Instruction.changes_of_effect {i : Instruction} {w : Width} {s s' : Store}
    (h : i.effect w s = .ok s') : s.Changes w s' := by
  have hmod (x : Nat) : x % w.modulus < w.modulus := Nat.mod_lt _ w.modulus_pos
  unfold effect at h
  simp only [Store.update_eq_setCell] at h
  split at h
  · exact Store.changes_of_setCell (.inl (hmod _)) h
  · exact Store.changes_of_setCell (.inl (hmod _)) h
  · split at h <;> cases h
    exact .single (.pointer s _)
  · split at h <;> cases h
    exact .single (.pointer s _)
  · obtain ⟨s₁, hw, h⟩ := bind_eq_ok_iff.1 h
    exact (Store.changes_of_writeTimes hw).trans (Store.changes_of_flush h)
  · exact Store.changes_of_readTimes h
  · split at h
    · exact Store.changes_of_setCell (.inl w.modulus_pos) h
    · obtain ⟨source, -, h⟩ := bind_eq_ok_iff.1 h
      exact Store.changes_of_setCell (.inl (hmod _)) h
  · split at h
    · cases h
      exact .single (.remark s _ _ (.inl rfl))
    · exact Store.changes_of_setCell (.inr (Nat.div_le_self _ _)) h
  · exact Store.changes_of_setCell (.inl (w.truncate_lt _)) h
  · exact Store.changes_of_scan h
  · exact Store.changes_of_scan h
  · exact Store.changes_of_printRun h
  all_goals
    cases h
    exact .refl

/-! ## 3. Regular stores -/

/-- A cell that is not on the tape counts as zero, so it fits as well. -/
theorem Width.getD_lt {w : Width} {tape : Array Nat} (h : ∀ value ∈ tape, value ≤ w.mask)
    (index : Nat) : tape.getD index 0 < w.modulus := by
  have hpos := w.modulus_pos
  by_cases hi : index < tape.size
  · have hle := h tape[index] (Array.getElem_mem hi)
    simp only [Array.getD, hi, dif_pos, Width.mask] at hle ⊢
    exact Nat.lt_of_le_of_lt hle (by omega)
  · simpa [Array.getD, hi] using hpos

/-- The sink takes every byte, and flushing succeeds. -/
structure Sink.Unfailing (s : Sink) : Prop where
  limit : s.limit = none
  flushing : s.flushing = .passes

/-- The cells fit the width, the pointer is a signed 64-bit number, and no
output is refused. -/
structure Store.Regular (w : Width) (s : Store) : Prop where
  cells : ∀ value ∈ s.tape, value ≤ w.mask
  pointer : Operand.InRange s.pointer
  sink : s.sink.Unfailing

namespace Store

theorem Regular.cell_lt {w : Width} {s : Store} (h : s.Regular w) (index : Nat) :
    s.tape.getD index 0 < w.modulus :=
  Width.getD_lt h.cells index

/-- Every elementary change keeps the cells within the width. -/
theorem Change.cells {w : Width} {s s' : Store} (h : Change w s s')
    (hcells : ∀ value ∈ s.tape, value ≤ w.mask) : ∀ value ∈ s'.tape, value ≤ w.mask := by
  cases h with
  | cell index value fits =>
    intro v hv
    rcases Array.mem_or_eq_of_mem_setIfInBounds hv with hv | rfl
    · exact hcells v hv
    · have := Width.getD_lt hcells index
      have := w.modulus_pos
      unfold Width.mask
      omega
  | _ => exact hcells

/-- Every elementary change keeps a store regular. -/
theorem Regular.change {w : Width} {s s' : Store} (hs : s.Regular w) (h : Change w s s') :
    s'.Regular w := by
  have hcells := h.cells hs.cells
  cases h with
  | cell => exact ⟨hcells, hs.pointer, hs.sink⟩
  | pointer distance => exact ⟨hcells, Operand.wrap_inRange _, hs.sink⟩
  | output byte => exact ⟨hcells, hs.pointer, ⟨hs.sink.limit, hs.sink.flushing⟩⟩
  | input => exact ⟨hcells, hs.pointer, hs.sink⟩
  | remark => exact ⟨hcells, hs.pointer, hs.sink⟩

/-- So does any number of changes. -/
theorem Regular.changes {w : Width} {s s' : Store} (hs : s.Regular w) (h : Changes w s s') :
    s'.Regular w := by
  induction h with
  | refl => exact hs
  | tail _ hc ih => exact ih.change hc

/-- **Instructions keep a store regular**, because all they do are changes. -/
theorem Regular.effect {w : Width} {i : Instruction} {s s' : Store} (hs : s.Regular w)
    (h : i.effect w s = .ok s') : s'.Regular w :=
  hs.changes (i.changes_of_effect h)

/-- A regular store takes every byte. -/
theorem Regular.emit_eq {w : Width} {s : Store} (hs : s.Regular w) (value : Nat) :
    s.emit value = .ok { s with sink := s.sink.push (UInt8.ofNat value) } := by
  simp [emit, Sink.room, hs.sink.limit]

theorem Regular.flush_eq {w : Width} {s : Store} (hs : s.Regular w) : s.flush = .ok s := by
  simp [flush, Sink.flush, hs.sink.flushing]

/-- The pointer is its own residue, so moving by nothing changes nothing. -/
theorem Regular.move_zero {w : Width} {s : Store} (hs : s.Regular w) : s.move 0 = s := by
  simp [move, Operand.wrap_of_inRange hs.pointer]

end Store

/-! ## 4. Failures -/

namespace Store

/-- A way in which work on the store itself can fail. -/
def Refuses (s : Store) (c : Crash) : Prop :=
  (∃ index position, c.failure = .outOfBounds index position) ∨
    (∃ failure, c.failure = .output failure) ∧ ¬ s.sink.Unfailing

theorem refuses_of_cell {s : Store} {offset : Int} {position : Option Position} {c : Crash}
    (h : s.cell offset position = .error c) : s.Refuses c := by
  obtain ⟨-, rfl⟩ := cell_eq_error_iff.1 h
  exact .inl ⟨_, _, rfl⟩

theorem refuses_of_setCell {s : Store} {offset : Int} {value : Nat} {position : Option Position}
    {c : Crash} (h : s.setCell offset value position = .error c) : s.Refuses c := by
  obtain ⟨-, rfl⟩ := setCell_eq_error_iff.1 h
  exact .inl ⟨_, _, rfl⟩

/-- A byte is refused only by a sink that can fail. -/
theorem refuses_of_emit {s : Store} {value : Nat} {c : Crash} (h : s.emit value = .error c) :
    s.Refuses c := by
  unfold emit at h
  split at h <;> cases h
  rename_i hroom
  exact .inr ⟨⟨_, rfl⟩, fun hs => hroom (by simp [Sink.room, hs.limit])⟩

theorem refuses_of_flush {s : Store} {c : Crash} (h : s.flush = .error c) : s.Refuses c := by
  unfold flush at h
  split at h <;> cases h
  rename_i hf
  exact .inr ⟨⟨_, rfl⟩, fun hs => by simp [Sink.flush, hs.flushing] at hf⟩

/-- Whether the sink can fail does not depend on what was done so far. -/
theorem Unfailing.changes {w : Width} {s s' : Store} (hs : s.sink.Unfailing)
    (h : Changes w s s') : s'.sink.Unfailing := by
  induction h with
  | refl => exact hs
  | tail _ hc ih =>
    cases hc with
    | output byte => exact ⟨ih.limit, ih.flushing⟩
    | _ => exact ih

/-- What a store refuses after some changes counts as refused before them. -/
theorem Refuses.of_changes {w : Width} {s s' : Store} {c : Crash} (hc : Changes w s s')
    (h : s'.Refuses c) : s.Refuses c :=
  h.imp_right (And.imp_right fun hn hs => hn (Unfailing.changes hs hc))

/-- Repeated writing fails at a cell or at the sink. -/
theorem refuses_of_writeTimes {position : Option Position} {count : Nat} {s : Store} {c : Crash}
    (h : s.writeTimes position count = .error c) : s.Refuses c := by
  induction count generalizing s with
  | zero => cases h
  | succ count ih =>
    unfold writeTimes at h
    cases hv : s.cell 0 position with
    | error c' =>
      simp only [hv, bind, Except.bind, Except.error.injEq] at h
      exact h ▸ refuses_of_cell hv
    | ok value =>
      cases he : s.emit value with
      | error c' =>
        simp only [hv, he, bind, Except.bind, Except.error.injEq] at h
        exact h ▸ refuses_of_emit he
      | ok s₁ =>
        simp only [hv, he, bind, Except.bind] at h
        exact (ih h).of_changes (changes_of_emit (w := .bits8) he)

/-- A read fails at its cell only: no input and bad input are no failures. -/
theorem refuses_of_readOnce {position : Option Position} {s : Store} {c : Crash}
    (h : s.readOnce position = .error c) : s.Refuses c := by
  unfold readOnce at h
  cases hr : (Input.receive s.input).1 with
  | byte value =>
    simp only [hr] at h
    exact (refuses_of_setCell h).imp_right id
  | nothing => simp [hr] at h
  | failed reason => simp [hr] at h

theorem refuses_of_readTimes {position : Option Position} {count : Nat} {s : Store} {c : Crash}
    (h : s.readTimes position count = .error c) : s.Refuses c := by
  induction count generalizing s with
  | zero => cases h
  | succ count ih =>
    unfold readTimes at h
    cases hr : s.readOnce position with
    | error c' =>
      simp only [hr, bind, Except.bind, Except.error.injEq] at h
      exact h ▸ refuses_of_readOnce hr
    | ok s₁ =>
      simp only [hr, bind, Except.bind] at h
      exact (ih h).of_changes (changes_of_readOnce (w := .bits8) hr)

/-- A scan fails where it leaves the tape. -/
theorem refuses_of_scan {direction : Direction} {position : Option Position} {s : Store}
    {c : Crash} (h : s.scan direction position = .error c) : s.Refuses c := by
  fun_induction scan s direction position with
  | case1 s _ hc =>
    cases h
    exact refuses_of_cell hc
  | case2 => cases h
  | case3 s _ _ _ _ ih => exact (ih h).of_changes (.single (.pointer (w := .bits8) s _))

/-- Printing a run fails where it leaves the tape, or at the sink. -/
theorem refuses_of_printRun {position : Option Position} {s : Store} {c : Crash}
    (h : s.printRun position = .error c) : s.Refuses c := by
  fun_induction printRun s position with
  | case1 s _ hc =>
    cases h
    exact refuses_of_cell hc
  | case2 s => exact refuses_of_flush h
  | case3 s _ _ _ _ he =>
    cases h
    exact refuses_of_emit he
  | case4 s _ _ _ written he _ ih =>
    have hmoved := (ih h).of_changes (.single (.pointer (w := .bits8) written _))
    exact hmoved.of_changes (changes_of_emit (w := .bits8) he)

end Store

/-- **How an instruction can fail**: the store refuses, or the instruction
moves to the left by a distance that has no opposite. -/
theorem Instruction.failure_of_effect {i : Instruction} {w : Width} {s : Store} {c : Crash}
    (h : i.effect w s = .error c) :
    s.Refuses c ∨
      c.failure = .overflow .negate ∧ i.opcode = .left ∧ ¬ Operand.InRange (-i.value) := by
  unfold effect at h
  simp only [Store.update_eq_setCell] at h
  split at h
  · exact .inl (Store.refuses_of_setCell h)
  · exact .inl (Store.refuses_of_setCell h)
  · rename_i hop
    simp [displacement, hop] at h
  · rename_i hop
    unfold displacement Operand.neg Operand.checked at h
    by_cases hr : Operand.InRange (-i.value)
    · simp [hop, hr] at h
    · simp only [hop, hr, if_false, Except.error.injEq] at h
      subst h
      exact .inr ⟨rfl, hop, hr⟩
  · cases hw : s.writeTimes i.position i.value.toNat with
    | error c' =>
      simp only [hw, bind, Except.bind, Except.error.injEq] at h
      exact .inl (h ▸ Store.refuses_of_writeTimes hw)
    | ok s₁ =>
      simp only [hw, bind, Except.bind] at h
      exact .inl ((Store.refuses_of_flush h).of_changes (Store.changes_of_writeTimes (w := w) hw))
  · exact .inl (Store.refuses_of_readTimes h)
  · split at h
    · exact .inl (Store.refuses_of_setCell h)
    · cases hv : s.cell 0 i.position with
      | error c' =>
        simp only [hv, bind, Except.bind, Except.error.injEq] at h
        exact .inl (h ▸ Store.refuses_of_cell hv)
      | ok source =>
        simp only [hv, bind, Except.bind] at h
        exact .inl (Store.refuses_of_setCell h)
  · split at h
    · cases h
    · exact .inl (Store.refuses_of_setCell h)
  · exact .inl (Store.refuses_of_setCell h)
  · exact .inl (Store.refuses_of_scan h)
  · exact .inl (Store.refuses_of_scan h)
  · exact .inl (Store.refuses_of_printRun h)
  all_goals cases h

end TapeCompiler
