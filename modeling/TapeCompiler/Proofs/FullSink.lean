/-
TapeCompiler.Proofs.FullSink — output into a sink that fills up.

A sink of a given size takes the beginning of what a sink without a limit
takes. Work that has more to write fails as soon as the sink is full, and
whatever it would have done after that, another failure included, does not
happen.

`confine` says this of results: from what some work comes to with a sink
without a limit it makes what the work comes to with a sink of a given size.
Two facts carry it from single writes to whole runs.

* Results are confined step by step (`confine_bind`), because nothing that
  was written is ever taken back (`Store.Keeps`): if the sink is full after
  the first step, what the second one adds is lost (`confine_of_full`).
* Every instruction confines its result (`Instruction.effect_confined`), and
  so does the rest of a run (`Program.resume_confined`).

Code that is written out is a list of blocks instead (`Sink.putAll_confined`).
-/
import TapeCompiler.Emit
import TapeCompiler.Proofs.Delivery
import TapeCompiler.Proofs.StepLimit

namespace TapeCompiler

/-! ## 1. Sinks of a given size -/

namespace Sink

/-- An empty sink that takes so many bytes and refuses all others. -/
def ofCapacity (capacity : Nat) (refusal : WriteFailure) : Sink :=
  { limit := some capacity, refusal }

/-- What a sink of a given size has taken, when a sink without a limit took
all this. -/
def confined (capacity : Nat) (refusal : WriteFailure) (s : Sink) : Sink :=
  { ofCapacity capacity refusal with written := s.written.extract 0 capacity }

variable {capacity : Nat} {refusal : WriteFailure} {s s' : Sink}

theorem confined_empty : ({} : Sink).confined capacity refusal = ofCapacity capacity refusal := by
  simp [confined, ofCapacity]

theorem written_confined (hfits : s.written.size ≤ capacity) :
    (s.confined capacity refusal).written = s.written :=
  Array.extract_eq_self_of_le hfits

theorem room_confined (hfits : s.written.size ≤ capacity) (count : Nat) :
    (s.confined capacity refusal).room count = min count (capacity - s.written.size) := by
  rw [room, written_confined hfits]
  rfl

/-- A full sink does not show what came later. -/
theorem confined_of_prefix (refusal : WriteFailure)
    (h : s.written.toList <+: s'.written.toList) (hfull : capacity ≤ s.written.size) :
    s'.confined capacity refusal = s.confined capacity refusal := by
  obtain ⟨more, hmore⟩ := h
  have hwritten : s'.written.extract 0 capacity = s.written.extract 0 capacity := by
    rw [← Array.toList_inj, Array.toList_extract, Array.toList_extract, ← hmore,
      List.extract_eq_take_drop, List.extract_eq_take_drop, List.drop_zero, List.drop_zero,
      List.take_append_of_le_length (by simpa using hfull)]
  rw [confined, confined, hwritten]

/-- **One block** is taken as far as there is room. -/
theorem put_confined (refusal : WriteFailure) (hlimit : s.limit = none)
    (hfits : s.written.size ≤ capacity) (block : Array UInt8) :
    (s.confined capacity refusal).put block =
      ((s.put block).1.confined capacity refusal,
        if (s.put block).1.written.size ≤ capacity then none else some refusal) := by
  have hopen : (s.confined capacity refusal).passesThrough block.size = false := rfl
  have htaken : block.extract 0 (min block.size (capacity - s.written.size)) =
      block.extract 0 (capacity - s.written.size) := by
    rcases Nat.le_total block.size (capacity - s.written.size) with hle | hle
    · rw [Nat.min_eq_left hle, Array.extract_eq_self_of_le hle, Array.extract_size]
    · rw [Nat.min_eq_right hle]
  have hcut : s.written ++ block.extract 0 (min block.size (capacity - s.written.size)) =
      (s.written ++ block).extract 0 capacity := by
    rw [Array.extract_append, Array.extract_eq_self_of_le hfits, Nat.zero_sub, htaken]
  have hroom : min block.size (capacity - s.written.size) = block.size ↔
      s.written.size + block.size ≤ capacity := by omega
  rw [put_of_unlimited hlimit, put, hopen, if_neg Bool.false_ne_true]
  simp only [room_confined hfits, written_confined hfits, hcut, hroom, Array.size_append]
  rfl

theorem putAll_cons_of_unlimited (hlimit : s.limit = none) (block : Array UInt8)
    (rest : List (Array UInt8)) :
    s.putAll (block :: rest) = { s with written := s.written ++ block }.putAll rest := by
  rw [putAll, put_of_unlimited hlimit]

/-- A sink without a limit keeps what it has. -/
theorem written_putAll (hlimit : s.limit = none) (blocks : List (Array UInt8)) :
    s.written.toList <+: (s.putAll blocks).1.written.toList := by
  induction blocks generalizing s with
  | nil => exact List.prefix_rfl
  | cons block rest ih =>
    rw [putAll_cons_of_unlimited hlimit]
    have hblock : s.written.toList <+: (s.written ++ block).toList := by simp
    exact hblock.trans (ih (s := { s with written := s.written ++ block }) hlimit)

/-- **A list of blocks** is taken up to the size of the sink. -/
theorem putAll_confined (refusal : WriteFailure) (hlimit : s.limit = none)
    (hfits : s.written.size ≤ capacity) (blocks : List (Array UInt8)) :
    (s.confined capacity refusal).putAll blocks =
      ((s.putAll blocks).1.confined capacity refusal,
        if (s.putAll blocks).1.written.size ≤ capacity then none else some refusal) := by
  induction blocks generalizing s with
  | nil => simp [putAll, hfits]
  | cons block rest ih =>
    have hput := put_confined refusal hlimit hfits block
    rw [put_of_unlimited hlimit] at hput
    rw [putAll, hput, putAll_cons_of_unlimited hlimit]
    by_cases hblock : (s.written ++ block).size ≤ capacity
    · rw [if_pos hblock]
      exact ih (s := { s with written := s.written ++ block }) hlimit hblock
    · -- the sink is full within this block, and the rest never gets to it
      have hkeeps := written_putAll (s := { s with written := s.written ++ block }) hlimit rest
      have hsize := hkeeps.length_le
      simp only [Array.length_toList] at hsize
      rw [if_neg hblock, if_neg (by omega),
        confined_of_prefix refusal hkeeps (Nat.le_of_not_le hblock)]

end Sink

/-- **A full sink** holds the beginning of the text, and hides how writing it
ended. -/
theorem Emission.deliver_ofCapacity (e : Emission String) (capacity : Nat)
    (refusal : WriteFailure) :
    (e.deliver (.ofCapacity capacity refusal)).sink =
        (e.deliver {}).sink.confined capacity refusal ∧
      (e.deliver (.ofCapacity capacity refusal)).outcome =
        if (e.deliver {}).sink.written.size ≤ capacity then (e.deliver {}).outcome
        else .error (.output refusal) := by
  unfold deliver
  generalize e.pieces.toList.map (fun piece => piece.toUTF8.data) = blocks
  have hfree : (({} : Sink).putAll blocks).2 = none := by rw [Sink.putAll_of_unlimited rfl]
  have hfull := Sink.putAll_confined refusal (s := {}) rfl (Nat.zero_le capacity) blocks
  rw [Sink.confined_empty] at hfull
  rw [hfull]
  by_cases hfits : (({} : Sink).putAll blocks).1.written.size ≤ capacity
  · simp [hfree, hfits]
  · simp [hfree, hfits]

/-! ## 2. Results of work that writes -/

/-- The result of some work whose output goes into a sink of a given size:
the same if the sink has taken all output, and else the sink is full. -/
def confine {α : Type} (capacity : Nat) (refusal : WriteFailure) (sink : α → Sink)
    (withSink : α → Sink → α) : Except Crash α → Except Crash α
  | .ok a =>
    if (sink a).written.size ≤ capacity then
      .ok (withSink a ((sink a).confined capacity refusal))
    else .error ⟨.output refusal, (sink a).confined capacity refusal⟩
  | .error c =>
    .error ⟨if c.sink.written.size ≤ capacity then c.failure else .output refusal,
      c.sink.confined capacity refusal⟩

section Confine

variable {capacity : Nat} {refusal : WriteFailure} {α β : Type} {sinkA : α → Sink}
  {withA : α → Sink → α} {sinkB : β → Sink} {withB : β → Sink → β}

/-- If the sink was full before, the work gets nowhere. -/
theorem confine_of_full (refusal : WriteFailure) {s : Sink} {r : Except Crash α}
    (hfull : capacity < s.written.size) (hkeeps : s.written.toList <+: outputOf sinkA r) :
    confine capacity refusal sinkA withA r =
      .error ⟨.output refusal, s.confined capacity refusal⟩ := by
  have hsize := hkeeps.length_le
  cases r with
  | ok a =>
    simp only [outputOf, Array.length_toList] at hsize
    rw [confine, if_neg (by omega), Sink.confined_of_prefix refusal hkeeps (Nat.le_of_lt hfull)]
  | error c =>
    simp only [outputOf, Array.length_toList] at hsize
    rw [confine, if_neg (by omega), Sink.confined_of_prefix refusal hkeeps (Nat.le_of_lt hfull)]

/-- **Step after step**: the second step is confined only if the first one
left room. -/
theorem confine_bind {r : Except Crash α} {f f' : α → Except Crash β}
    (hwithin : ∀ a, r = .ok a → (sinkA a).written.size ≤ capacity →
      f' (withA a ((sinkA a).confined capacity refusal)) =
        confine capacity refusal sinkB withB (f a))
    (hkeeps : ∀ a, r = .ok a → (sinkA a).written.toList <+: outputOf sinkB (f a)) :
    (confine capacity refusal sinkA withA r >>= f') =
      confine capacity refusal sinkB withB (r >>= f) := by
  cases r with
  | error c => rfl
  | ok a =>
    by_cases hfits : (sinkA a).written.size ≤ capacity
    · rw [confine, if_pos hfits]
      exact hwithin a rfl hfits
    · rw [confine, if_neg hfits]
      exact (confine_of_full refusal (Nat.lt_of_not_le hfits) (hkeeps a rfl)).symm

end Confine

/-! ## 3. Instructions -/

namespace Store

/-- The store, with a sink of a given size behind it. -/
def confined (capacity : Nat) (refusal : WriteFailure) (s : Store) : Store :=
  s.withSink (s.sink.confined capacity refusal)

/-- What work on the store comes to with a sink of a given size. -/
abbrev confine (capacity : Nat) (refusal : WriteFailure) :
    Except Crash Store → Except Crash Store :=
  TapeCompiler.confine capacity refusal sink withSink

section Confined

variable {capacity : Nat} {refusal : WriteFailure} {s : Store} {position : Option Position}
  {α : Type} {sinkA : α → Sink} {withA : α → Sink → α}

theorem confine_ok (hfits : s.sink.written.size ≤ capacity) :
    confine capacity refusal (.ok s) = .ok (s.confined capacity refusal) := if_pos hfits

theorem confine_crash (hfits : s.sink.written.size ≤ capacity) (failure : RunFailure) :
    TapeCompiler.confine capacity refusal sinkA withA (.error (s.crash failure)) =
      .error ((s.confined capacity refusal).crash failure) := by
  simp only [TapeCompiler.confine, crash, hfits, if_true]
  rfl

/-- Looking at a cell takes no room. -/
theorem cell_confined (hfits : s.sink.written.size ≤ capacity) {offset : Int}
    {f f' : Nat → Except Crash α}
    (hf : ∀ value, f' value = TapeCompiler.confine capacity refusal sinkA withA (f value)) :
    ((s.confined capacity refusal).cell offset position >>= f') =
      TapeCompiler.confine capacity refusal sinkA withA (s.cell offset position >>= f) := by
  have haddress : (s.confined capacity refusal).address offset = s.address offset := rfl
  have htape : (s.confined capacity refusal).OnTape (s.address offset) ↔
      s.OnTape (s.address offset) := Iff.rfl
  simp only [cell, haddress, htape]
  by_cases hon : s.OnTape (s.address offset)
  · rw [if_pos hon, if_pos hon]
    exact hf _
  · rw [if_neg hon, if_neg hon]
    exact (confine_crash hfits _).symm

theorem setCell_confined (hfits : s.sink.written.size ≤ capacity) (offset : Int) (value : Nat)
    (position : Option Position) :
    (s.confined capacity refusal).setCell offset value position =
      confine capacity refusal (s.setCell offset value position) := by
  have haddress : (s.confined capacity refusal).address offset = s.address offset := rfl
  have htape : (s.confined capacity refusal).OnTape (s.address offset) ↔
      s.OnTape (s.address offset) := Iff.rfl
  simp only [setCell, haddress, htape]
  by_cases hon : s.OnTape (s.address offset)
  · rw [if_pos hon, if_pos hon]
    exact (confine_ok (s := { s with tape := s.tape.setIfInBounds (s.address offset).toNat value })
      hfits).symm
  · rw [if_neg hon, if_neg hon]
    exact (confine_crash hfits _).symm

/-- **One byte** is taken if there is room for it. -/
theorem emit_confined (hlimit : s.sink.limit = none) (hfits : s.sink.written.size ≤ capacity)
    (value : Nat) :
    (s.confined capacity refusal).emit value = confine capacity refusal (s.emit value) := by
  have hfree : s.emit value = .ok { s with sink := s.sink.push (UInt8.ofNat value) } := by
    simp [emit, Sink.room, hlimit]
  have hwritten : (s.sink.push (UInt8.ofNat value)).written.size = s.sink.written.size + 1 :=
    Array.size_push _
  have hroom : (s.confined capacity refusal).sink.room 1 =
      min 1 (capacity - s.sink.written.size) := Sink.room_confined hfits 1
  rw [hfree, emit, hroom]
  by_cases hmore : s.sink.written.size + 1 ≤ capacity
  · have hpush : (s.sink.confined capacity refusal).push (UInt8.ofNat value) =
        (s.sink.push (UInt8.ofNat value)).confined capacity refusal := by
      simp only [Sink.push, Sink.confined, Array.extract_eq_self_of_le hfits]
      rw [Array.extract_eq_self_of_le (by simpa using hmore)]
    have hfits' : (s.sink.push (UInt8.ofNat value)).written.size ≤ capacity := by omega
    rw [if_pos (by omega),
      confine_ok (s := { s with sink := s.sink.push (UInt8.ofNat value) }) hfits']
    simp only [confined, withSink, hpush]
  · have hkeeps : s.sink.written.toList <+: (s.sink.push (UInt8.ofNat value)).written.toList := by
      simp [Sink.push]
    have hsame := Sink.confined_of_prefix refusal hkeeps
      (Nat.le_of_lt_succ (Nat.lt_of_not_le hmore))
    have hfull : ¬ (s.sink.push (UInt8.ofNat value)).written.size ≤ capacity := by omega
    rw [if_neg (by omega), confine, TapeCompiler.confine, if_neg hfull, hsame]
    rfl

theorem flush_confined (hflush : s.sink.flushing = .passes)
    (hfits : s.sink.written.size ≤ capacity) :
    (s.confined capacity refusal).flush = confine capacity refusal s.flush := by
  have hfree : s.flush = .ok s := by simp [flush, Sink.flush, hflush]
  rw [hfree, confine_ok hfits]
  rfl

/-- Writing a cell several times. -/
theorem writeTimes_confined (hsink : s.sink.Unfailing) (hfits : s.sink.written.size ≤ capacity)
    (position : Option Position) (count : Nat) :
    (s.confined capacity refusal).writeTimes position count =
      confine capacity refusal (s.writeTimes position count) := by
  induction count generalizing s with
  | zero => exact (confine_ok hfits).symm
  | succ count ih =>
    refine cell_confined hfits fun value => ?_
    rw [emit_confined hsink.limit hfits]
    refine confine_bind (fun s' he hfits' => ?_) fun s' _ => s'.keeps_writeTimes position count
    exact ih (Unfailing.changes hsink (changes_of_emit (w := .bits8) he)) hfits'

theorem readOnce_confined (hfits : s.sink.written.size ≤ capacity) (position : Option Position) :
    (s.confined capacity refusal).readOnce position =
      confine capacity refusal (s.readOnce position) := by
  have hinput : (s.confined capacity refusal).input = s.input := rfl
  unfold readOnce
  rw [hinput]
  obtain ⟨received, input⟩ := Input.receive s.input
  cases received with
  | byte value => exact setCell_confined (s := { s with input }) hfits 0 value.toNat position
  | nothing => exact (confine_ok (s := { s with input }) hfits).symm
  | failed reason =>
    exact (confine_ok
      (s := { s with input }.warn ("Failed to read input: " ++ reason) position) hfits).symm

theorem readTimes_confined (hsink : s.sink.Unfailing) (hfits : s.sink.written.size ≤ capacity)
    (position : Option Position) (count : Nat) :
    (s.confined capacity refusal).readTimes position count =
      confine capacity refusal (s.readTimes position count) := by
  induction count generalizing s with
  | zero => exact (confine_ok hfits).symm
  | succ count ih =>
    rw [readTimes, readOnce_confined hfits]
    refine confine_bind (fun s' hr hfits' => ?_) fun s' _ => s'.keeps_readTimes position count
    exact ih (Unfailing.changes hsink (changes_of_readOnce (w := .bits8) hr)) hfits'

theorem cell_confined_eq_ok {value : Nat} (h : s.cell 0 position = .ok value) :
    (s.confined capacity refusal).cell 0 position = .ok value := by
  obtain ⟨hon, hvalue⟩ := cell_eq_ok_iff.1 h
  exact cell_eq_ok_iff.2 ⟨hon, hvalue⟩

theorem cell_confined_eq_error (refusal : WriteFailure) {c : Crash}
    (hfits : s.sink.written.size ≤ capacity)
    (h : s.cell 0 position = .error c) :
    (s.confined capacity refusal).cell 0 position =
      .error ⟨c.failure, c.sink.confined capacity refusal⟩ ∧
    confine capacity refusal (.error c) = .error ⟨c.failure, c.sink.confined capacity refusal⟩ := by
  obtain ⟨hoff, rfl⟩ := cell_eq_error_iff.1 h
  exact ⟨cell_eq_error_iff.2 ⟨hoff, rfl⟩, confine_crash hfits _⟩

theorem scan_confined (hfits : s.sink.written.size ≤ capacity) (direction : Direction)
    (position : Option Position) :
    (s.confined capacity refusal).scan direction position =
      confine capacity refusal (s.scan direction position) := by
  fun_induction scan s direction position with
  | case1 s c hc =>
    obtain ⟨hcell, hconfine⟩ := cell_confined_eq_error refusal hfits hc
    rw [scan_of_error hcell, hconfine]
  | case2 s hc => rw [scan_of_zero (cell_confined_eq_ok hc), confine_ok hfits]
  | case3 s value hc hvalue _ ih =>
    obtain ⟨value, rfl⟩ := Nat.exists_eq_succ_of_ne_zero hvalue
    rw [scan_of_succ (cell_confined_eq_ok hc)]
    exact ih hfits

/-- Behind a cell that is not zero, a print goes on if the byte was taken. -/
theorem printRun_of_cell {value : Nat} (h : s.cell 0 position = .ok (value + 1)) :
    s.printRun position =
      (s.emit (value + 1) >>= fun written => (written.move 1).printRun position) := by
  cases he : s.emit (value + 1) with
  | ok written => exact printRun_of_succ h he
  | error c =>
    rw [printRun]
    split
    · simp_all
    · rename_i value' h'
      obtain rfl : value + 1 = value' := by simpa [h] using h'
      simp only [Nat.add_eq_zero_iff, Nat.one_ne_zero, and_false, if_false]
      split <;> simp_all [bind, Except.bind]

theorem printRun_confined (hsink : s.sink.Unfailing) (hfits : s.sink.written.size ≤ capacity)
    (position : Option Position) :
    (s.confined capacity refusal).printRun position =
      confine capacity refusal (s.printRun position) := by
  fun_induction printRun s position with
  | case1 s c hc =>
    obtain ⟨hcell, hconfine⟩ := cell_confined_eq_error refusal hfits hc
    rw [printRun_of_error hcell, hconfine]
  | case2 s hc =>
    rw [printRun_of_zero (cell_confined_eq_ok hc)]
    exact flush_confined hsink.flushing hfits
  | case3 s value hc hvalue c he => simp [emit, Sink.room, hsink.limit] at he
  | case4 s value hc hvalue written he _ ih =>
    obtain ⟨value, rfl⟩ := Nat.exists_eq_succ_of_ne_zero hvalue
    have hrest : confine capacity refusal ((written.move 1).printRun position) =
        confine capacity refusal
          (s.emit (value + 1) >>= fun written => (written.move 1).printRun position) := by
      rw [he]
      rfl
    rw [printRun_of_cell (cell_confined_eq_ok hc), emit_confined hsink.limit hfits, hrest]
    refine confine_bind (fun s' he' hfits' => ?_) fun s' _ => (keeps_printRun _ position).of_eq rfl
    obtain rfl : written = s' := by simpa [he] using he'
    have hwritten : written.sink.Unfailing :=
      Unfailing.changes hsink (changes_of_emit (w := .bits8) he)
    exact ih hwritten hfits'

end Confined

end Store

/-- **Every instruction** does with a sink of a given size what it does
without a limit, until the sink is full. -/
theorem Instruction.effect_confined (i : Instruction) (w : Width) (refusal : WriteFailure)
    {capacity : Nat} {s : Store} (hsink : s.sink.Unfailing)
    (hfits : s.sink.written.size ≤ capacity) :
    i.effect w (s.confined capacity refusal) = Store.confine capacity refusal (i.effect w s) := by
  have hsetCell (offset : Int) (value : Nat) :
      (s.confined capacity refusal).setCell offset value i.position =
        Store.confine capacity refusal (s.setCell offset value i.position) :=
    Store.setCell_confined hfits offset value i.position
  unfold effect
  simp only [Store.update_eq_setCell]
  split
  · exact hsetCell _ _
  · exact hsetCell _ _
  · split
    · exact (Store.confine_ok (s := s.move _) hfits).symm
    · exact (Store.confine_crash hfits _).symm
  · split
    · exact (Store.confine_ok (s := s.move _) hfits).symm
    · exact (Store.confine_crash hfits _).symm
  · rw [Store.writeTimes_confined hsink hfits]
    refine confine_bind (fun s' hw hfits' => ?_) fun s' _ => s'.keeps_flush
    exact Store.flush_confined
      (Store.Unfailing.changes hsink (Store.changes_of_writeTimes (w := w) hw)).flushing hfits'
  · exact Store.readTimes_confined hsink hfits _ _
  · split
    · exact hsetCell _ _
    · exact Store.cell_confined hfits fun _ => hsetCell _ _
  · split
    · exact (Store.confine_ok (s := s.warn _ _) hfits).symm
    · exact hsetCell _ _
  · exact hsetCell _ _
  · exact Store.scan_confined hfits _ _
  · exact Store.scan_confined hfits _ _
  · exact Store.printRun_confined hsink hfits _
  all_goals exact (Store.confine_ok hfits).symm

/-! ## 4. Runs -/

namespace Machine

/-- The machine, with a sink of a given size behind it. -/
def confined (capacity : Nat) (refusal : WriteFailure) (m : Machine) : Machine :=
  { m with toStore := m.toStore.confined capacity refusal }

/-- The machine with other output. -/
def withSink (m : Machine) (sink : Sink) : Machine := { m with sink }

/-- What a run comes to with a sink of a given size. -/
abbrev confineRun (capacity : Nat) (refusal : WriteFailure) :
    Except Crash (Outcome × Machine) → Except Crash (Outcome × Machine) :=
  confine capacity refusal (fun ending => ending.2.sink)
    (fun ending sink => (ending.1, ending.2.withSink sink))

/-- How a run ended, its output apart. -/
def ending : Except Crash (Outcome × Machine) → Except RunFailure (Outcome × Machine)
  | .ok (outcome, m) => .ok (outcome, m.withSink {})
  | .error c => .error c.failure

end Machine

namespace Program

variable {p : Program} {capacity : Nat} {refusal : WriteFailure} {m : Machine}

/-- **One step** of a run. -/
theorem perform_confined (i : Instruction) (hsink : m.sink.Unfailing)
    (hfits : m.sink.written.size ≤ capacity) :
    p.perform i (m.confined capacity refusal) =
      confine capacity refusal (fun m => m.sink) Machine.withSink (p.perform i m) := by
  have hjump (target : Option Nat) :
      .ok ((m.confined capacity refusal).jump target i) =
        confine capacity refusal (fun m => m.sink) Machine.withSink (.ok (m.jump target i)) := by
    cases target <;> exact (if_pos hfits).symm
  have hnext : .ok (m.confined capacity refusal).next =
      confine capacity refusal (fun m => m.sink) Machine.withSink (.ok m.next) :=
    (if_pos hfits).symm
  unfold perform
  split
  case h_4 =>
    have heffect := i.effect_confined p.width refusal hsink hfits
    rw [show (m.confined capacity refusal).toStore = m.toStore.confined capacity refusal from rfl,
      heffect]
    exact confine_bind (fun s _ hfits' => (if_pos hfits').symm) fun s _ => List.prefix_rfl
  all_goals
    refine Store.cell_confined hfits fun value => ?_
    split
    · first | exact hjump _ | exact hnext
    · first | exact hjump _ | exact hnext

/-- A step and the rest of the run, one after the other. -/
theorem resume_step {i : Instruction} (next : p.code[m.counter]? = some i)
    (before : p.exhausted m = false) (headroom : Nat) :
    p.resume (headroom + 1) m =
      p.perform i { m with steps := m.steps + 1 } >>= p.resume headroom := by
  rw [resume_succ next before]
  cases p.perform i { m with steps := m.steps + 1 } <;> rfl

/-- **The rest of a run** does with a sink of a given size what it does
without a limit, until the sink is full. -/
theorem resume_confined (p : Program) (refusal : WriteFailure) (headroom : Nat)
    (hsink : m.sink.Unfailing) (hfits : m.sink.written.size ≤ capacity) :
    p.resume headroom (m.confined capacity refusal) =
      Machine.confineRun capacity refusal (p.resume headroom m) := by
  have hstep {m : Machine} (i : Instruction) (hsink : m.sink.Unfailing)
      (hfits : m.sink.written.size ≤ capacity) :
      p.perform i { m.confined capacity refusal with steps := m.steps + 1 } = _ :=
    perform_confined (m := { m with steps := m.steps + 1 }) i hsink hfits
  fun_induction resume p headroom m with
  | case1 headroom m finished =>
    rw [resume_end (m := m.confined capacity refusal) finished]
    exact (if_pos hfits).symm
  | case2 headroom m i next reached =>
    rw [resume_exhausted (m := m.confined capacity refusal) next reached]
    exact (if_pos hfits).symm
  | case3 m i next before =>
    rw [resume_zero (m := m.confined capacity refusal) next (eq_false_of_ne_true before)]
    exact (Store.confine_crash hfits _).symm
  | case4 m i next before headroom c fails =>
    rw [resume_step (m := m.confined capacity refusal) next (eq_false_of_ne_true before)]
    refine (congrArg (· >>= p.resume headroom) (hstep i hsink hfits)).trans ?_
    rw [fails]
    rfl
  | case5 m i next before headroom m' done ih =>
    have hsink' : m'.sink.Unfailing := unfailing_of_perform done hsink
    rw [resume_step (m := m.confined capacity refusal) next (eq_false_of_ne_true before)]
    refine (congrArg (· >>= p.resume headroom) (hstep i hsink hfits)).trans ?_
    rw [done]
    refine confine_bind (r := .ok m') (fun _ h hroom => ?_)
      fun _ _ => written_of_resume p headroom _
    cases h
    exact ih hsink' hroom

end Program

namespace Machine

variable {capacity : Nat} {refusal : WriteFailure}

theorem output_confineRun (r : Except Crash (Outcome × Machine)) :
    output (confineRun capacity refusal r) = (output r).take capacity := by
  have hwritten (s : Sink) :
      (s.confined capacity refusal).written.toList = s.written.toList.take capacity := by
    simp [Sink.confined, List.extract_eq_take_drop]
  cases r with
  | error c => exact hwritten c.sink
  | ok r =>
    rw [confineRun, confine]
    split <;> exact hwritten r.2.sink

theorem ending_confineRun (r : Except Crash (Outcome × Machine)) :
    ending (confineRun capacity refusal r) =
      if (output r).length ≤ capacity then ending r else .error (.output refusal) := by
  cases r with
  | error c =>
    rw [confineRun, confine, output, outputOf, Array.length_toList, ending]
    split <;> rfl
  | ok r =>
    rw [confineRun, confine, output, outputOf, Array.length_toList]
    split <;> rfl

theorem execute_ofCapacity (m : Machine) (code : List Instruction) (w : Width)
    (limit : Option Nat) :
    (m.withSink (.ofCapacity capacity refusal)).execute code w limit =
      confineRun capacity refusal ((m.withSink {}).execute code w limit) := by
  have hstart : m.withSink (.ofCapacity capacity refusal) =
      (m.withSink {}).confined capacity refusal := by
    rw [← Sink.confined_empty]
    rfl
  rw [hstart]
  exact Program.resume_confined (m := (m.withSink {}).entering code)
    { Stream.program code w with limit } refusal _ ⟨rfl, rfl⟩ (Nat.zero_le capacity)

end Machine

/-! ## 5. Both kinds of output -/

/-- **A full sink holds the beginning.** Let a sink take so many bytes, refuse
all others, and never fail to pass on what it took.

* Code that is written into it arrives up to the size of the sink. If all of
  it fits, writing ends as it does with a sink without a limit, and else with
  the refusal.
* The same holds for the output of a run, from any state and under any step
  limit; if all output fits, the run also leaves the same state and the same
  rest of the input. -/
theorem Sink.ofCapacity_keeps_beginning (capacity : Nat) (refusal : WriteFailure) :
    (∀ (target : Target) (options : EmitOptions) (code : List Instruction),
      let free := Stream.emit target options code {}
      let full := Stream.emit target options code (.ofCapacity capacity refusal)
      full.sink.written = free.sink.written.extract 0 capacity ∧
        full.outcome =
          if free.sink.written.size ≤ capacity then free.outcome else .error (.output refusal)) ∧
    ∀ (m : Machine) (code : List Instruction) (w : Width) (limit : Option Nat),
      let free := (m.withSink {}).execute code w limit
      let full := (m.withSink (.ofCapacity capacity refusal)).execute code w limit
      Machine.output full = (Machine.output free).take capacity ∧
        Machine.ending full =
          if (Machine.output free).length ≤ capacity then Machine.ending free
          else .error (.output refusal) := by
  constructor
  · intro target options code free full
    obtain ⟨hsink, houtcome⟩ :=
      (Stream.emission target options code).deliver_ofCapacity capacity refusal
    exact ⟨congrArg Sink.written hsink, houtcome⟩
  · intro m code w limit free full
    have hconfined : full = Machine.confineRun capacity refusal free :=
      m.execute_ofCapacity code w limit
    rw [hconfined]
    exact ⟨Machine.output_confineRun free, Machine.ending_confineRun free⟩

end TapeCompiler
