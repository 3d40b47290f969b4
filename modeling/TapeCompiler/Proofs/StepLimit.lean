/-
TapeCompiler.Proofs.StepLimit — a step limit only cuts a run short.

`Program.Ends` tells how a run ends, step by step, with the step count at
its end, the instruction it broke off at included. It knows nothing of the
size of the step counter; `Program.resume_of_ends` says that a counter with
enough room gives the same.

* Under a limit every run ends (`Program.exists_ends`). Three instructions
  have walks of their own over the tape, and each walk comes to a zero cell
  or leaves the tape within as many cells as the tape has
  (`Instruction.walkStops_of_effect`).
* Until a limit is reached, a run does what it does without one
  (`Ends.under_limit`, `Ends.cut`).
* What was written is never taken back, neither by an instruction
  (`Instruction.keeps_effect`) nor by the rest of a run, so less time leaves
  a shorter part of the same output (`Program.output_resume_le`).
-/
import TapeCompiler.Proofs.ControlFlow

namespace TapeCompiler

/-! ## 1. Walks over the tape -/

/-- The direction in which an instruction walks up to a zero cell. -/
def Opcode.walk? : Opcode → Option Direction
  | .scanRight | .printRun => some .right
  | .scanLeft => some .left
  | _ => none

namespace Store

/-- The store after `n` steps of a walk. -/
def walked (direction : Direction) : Nat → Store → Store
  | 0, s => s
  | n + 1, s => walked direction n (s.move direction.step)

/-- The store with other output. -/
def withSink (s : Store) (sink : Sink) : Store := { s with sink }

/-- A walk ends: after at most as many cells as the tape has, none of them
zero, it stands on a zero cell, or off the tape and fails. -/
def WalkStops (s : Store) (direction : Direction) (position : Option Position)
    (result : Except Crash Store) : Prop :=
  ∃ n sink, n ≤ s.tape.size ∧
    (∀ k < n, ∃ value, (s.walked direction k).cell 0 position = .ok (value + 1)) ∧
    ((s.walked direction n).cell 0 position = .ok 0 ∧
        result = .ok ((s.walked direction n).withSink sink) ∨
      ¬ s.OnTape ((s.walked direction n).address 0) ∧
        result = .error ⟨.outOfBounds ((s.walked direction n).address 0) position, sink⟩)

section Walks

variable {s : Store} {direction : Direction} {position : Option Position} {n : Nat}

/-- From cell to cell of the tape a walk goes on by one; behind the last
word there is no cell. -/
theorem address_of_move (hon : s.OnTape (s.address 0))
    (hnext : s.OnTape ((s.move direction.step).address 0)) :
    (s.move direction.step).address 0 = s.address 0 + direction.step := by
  have hrange : Operand.InRange (s.address 0) := Operand.wrap_inRange _
  have hstay : Operand.InRange (s.address 0 + direction.step) →
      Operand.wrap (s.address 0 + direction.step) = s.address 0 + direction.step :=
    Operand.wrap_of_inRange
  obtain ⟨hlow, -⟩ := hon
  obtain ⟨hlow', -⟩ := hnext
  rw [address_move] at hlow' ⊢
  unfold Operand.InRange Operand.least Operand.greatest at *
  cases direction with
  | left =>
    simp only [Direction.step] at *
    exact hstay (by omega)
  | right =>
    simp only [Direction.step] at *
    by_cases hlast : s.address 0 = 9223372036854775807
    · rw [hlast] at hlow'
      simp [Operand.wrap, Int.bmod] at hlow'
    · exact hstay (by omega)

theorem tape_walked (s : Store) (direction : Direction) (n : Nat) :
    (s.walked direction n).tape = s.tape := by
  induction n generalizing s with
  | zero => rfl
  | succ n ih => exact ih (s.move direction.step)

theorem address_walked
    (h : ∀ k < n, s.OnTape ((s.walked direction k).address 0)) :
    ∀ k < n, (s.walked direction k).address 0 = s.address 0 + k * direction.step := by
  induction n generalizing s with
  | zero => simp
  | succ n ih =>
    intro k hk
    cases k with
    | zero => simp [walked]
    | succ k =>
      have hmove := address_of_move (h 0 (by omega)) (h 1 (by omega))
      have hlater : ∀ k < n, (s.move direction.step).OnTape
          (((s.move direction.step).walked direction k).address 0) :=
        fun k hk => h (k + 1) (by omega)
      show ((s.move direction.step).walked direction k).address 0 = _
      rw [ih hlater k (by omega), hmove, Int.natCast_add_one, Int.add_mul, Int.one_mul,
        Int.add_assoc, Int.add_comm direction.step]

/-- A walk passes no cell of the tape twice. -/
theorem le_size_of_walked (h : ∀ k < n, s.OnTape ((s.walked direction k).address 0)) :
    n ≤ s.tape.size := by
  cases n with
  | zero => exact Nat.zero_le _
  | succ n =>
    have hfirst := h 0 (by omega)
    have hlast := h n (by omega)
    rw [address_walked h n (by omega)] at hlast
    obtain ⟨hlow, hhigh⟩ := hfirst
    obtain ⟨hlow', hhigh'⟩ := hlast
    simp only [walked] at hlow hhigh
    cases direction <;> simp only [Direction.step] at hlow' hhigh' <;> omega

theorem WalkStops.zero (h : s.cell 0 position = .ok 0) :
    s.WalkStops direction position (.ok s) :=
  ⟨0, s.sink, Nat.zero_le _, by simp, .inl ⟨h, rfl⟩⟩

theorem WalkStops.off {c : Crash} (h : s.cell 0 position = .error c) :
    s.WalkStops direction position (.error c) := by
  obtain ⟨hoff, rfl⟩ := cell_eq_error_iff.1 h
  exact ⟨0, s.sink, Nat.zero_le _, by simp, .inr ⟨hoff, rfl⟩⟩

theorem WalkStops.next {value : Nat} {result : Except Crash Store}
    (h : s.cell 0 position = .ok (value + 1))
    (rest : (s.move direction.step).WalkStops direction position result) :
    s.WalkStops direction position result := by
  obtain ⟨n, sink, -, hpassed, hend⟩ := rest
  have hall : ∀ k < n + 1, ∃ value, (s.walked direction k).cell 0 position = .ok (value + 1) := by
    intro k hk
    cases k with
    | zero => exact ⟨value, h⟩
    | succ k => exact hpassed k (by omega)
  have hon : ∀ k < n + 1, s.OnTape ((s.walked direction k).address 0) := by
    intro k hk
    obtain ⟨_, hcell⟩ := hall k hk
    have hon := (cell_eq_ok_iff.1 hcell).1
    rwa [OnTape, tape_walked] at hon
  exact ⟨n + 1, sink, le_size_of_walked hon, hall, hend⟩

theorem walked_withSink (s : Store) (sink : Sink) (direction : Direction) (n : Nat) :
    (s.withSink sink).walked direction n = (s.walked direction n).withSink sink := by
  induction n generalizing s with
  | zero => rfl
  | succ n ih => exact ih (s.move direction.step)

theorem cell_of_withSink {sink : Sink} {offset : Int} {value : Nat}
    (h : (s.withSink sink).cell offset position = .ok value) :
    s.cell offset position = .ok value := by
  obtain ⟨hon, hvalue⟩ := cell_eq_ok_iff.1 h
  exact cell_eq_ok_iff.2 ⟨hon, hvalue⟩

/-- What was written before has no share in where a walk ends. -/
theorem WalkStops.of_withSink {sink : Sink} {result : Except Crash Store}
    (h : (s.withSink sink).WalkStops direction position result) :
    s.WalkStops direction position result := by
  obtain ⟨n, sink', hn, hpassed, hend⟩ := h
  simp only [walked_withSink] at hpassed hend
  refine ⟨n, sink', hn, fun k hk => ?_, ?_⟩
  · obtain ⟨value, hvalue⟩ := hpassed k hk
    exact ⟨value, cell_of_withSink hvalue⟩
  · exact hend.imp_left (And.imp_left cell_of_withSink)

theorem walkStops_scan (s : Store) (direction : Direction) (position : Option Position) :
    s.WalkStops direction position (s.scan direction position) := by
  fun_induction scan s direction position with
  | case1 s c hc => exact .off hc
  | case2 s hc => exact .zero hc
  | case3 s value hc hvalue _ ih =>
    obtain ⟨value, rfl⟩ := Nat.exists_eq_succ_of_ne_zero hvalue
    exact .next hc ih

theorem walkStops_printRun (s : Store) (position : Option Position) (hsink : s.sink.Unfailing) :
    s.WalkStops .right position (s.printRun position) := by
  fun_induction printRun s position with
  | case1 s c hc => exact .off hc
  | case2 s hc =>
    have hflush : s.flush = .ok s := by simp [flush, Sink.flush, hsink.flushing]
    rw [hflush]
    exact .zero hc
  | case3 s value hc hvalue c he => simp [emit, Sink.room, hsink.limit] at he
  | case4 s value hc hvalue written he _ ih =>
    obtain ⟨value, rfl⟩ := Nat.exists_eq_succ_of_ne_zero hvalue
    obtain ⟨-, rfl⟩ := emit_eq_ok_iff.1 he
    have hrest : ((s.move 1).withSink (s.sink.push (UInt8.ofNat (value + 1)))).WalkStops .right
        position _ := ih ⟨hsink.limit, hsink.flushing⟩
    exact .next hc hrest.of_withSink

end Walks

end Store

/-- **A walk over the tape ends** on a zero cell or off the tape. -/
theorem Instruction.walkStops_of_effect {i : Instruction} {direction : Direction}
    (h : i.opcode.walk? = some direction) (w : Width) {s : Store} (hsink : s.sink.Unfailing) :
    s.WalkStops direction i.position (i.effect w s) := by
  unfold Opcode.walk? at h
  split at h <;> cases h
  · rename_i hop
    simp only [effect, hop]
    exact s.walkStops_scan .right i.position
  · rename_i hop
    simp only [effect, hop]
    exact s.walkStops_printRun i.position hsink
  · rename_i hop
    simp only [effect, hop]
    exact s.walkStops_scan .left i.position

/-! ## 2. Output is never taken back -/

/-- What was written in all, whether the work was done or broke off. -/
def outputOf {α : Type} (sink : α → Sink) : Except Crash α → List UInt8
  | .ok result => (sink result).written.toList
  | .error c => c.sink.written.toList

/-- What a run has written in all. -/
def Machine.output (r : Except Crash (Outcome × Machine)) : List UInt8 :=
  outputOf (fun ending => ending.2.sink) r

namespace Store

/-- What was written before some work on the store is still there after it. -/
def Keeps (s : Store) (r : Except Crash Store) : Prop :=
  s.sink.written.toList <+: outputOf Store.sink r

section Keeps

variable {s : Store}

theorem Keeps.of_eq {s' : Store} {r : Except Crash Store} (h : s'.Keeps r)
    (hsink : s.sink = s'.sink) : s.Keeps r := by
  unfold Keeps
  rw [hsink]
  exact h

/-- One piece of work after another. -/
theorem Keeps.bind {r : Except Crash Store} {f : Store → Except Crash Store} (h : s.Keeps r)
    (hf : ∀ s', r = .ok s' → s'.Keeps (f s')) : s.Keeps (r >>= f) := by
  cases r with
  | error c => exact h
  | ok s' => exact List.IsPrefix.trans h (hf s' rfl)

theorem keeps_setCell (s : Store) (offset : Int) (value : Nat) (position : Option Position) :
    s.Keeps (s.setCell offset value position) := by
  cases h : s.setCell offset value position with
  | ok s' =>
    obtain ⟨-, rfl⟩ := setCell_eq_ok_iff.1 h
    exact List.prefix_rfl
  | error c =>
    obtain ⟨-, rfl⟩ := setCell_eq_error_iff.1 h
    exact List.prefix_rfl

/-- Looking at a cell writes nothing. -/
theorem keeps_cell (offset : Int) (position : Option Position)
    {f : Nat → Except Crash Store} (hf : ∀ value, s.Keeps (f value)) :
    s.Keeps (s.cell offset position >>= f) := by
  cases h : s.cell offset position with
  | ok value => exact hf value
  | error c =>
    obtain ⟨-, rfl⟩ := cell_eq_error_iff.1 h
    exact List.prefix_rfl

theorem keeps_emit (s : Store) (value : Nat) : s.Keeps (s.emit value) := by
  unfold emit
  split
  · simp [Keeps, outputOf, Sink.push]
  · exact List.prefix_rfl

theorem keeps_flush (s : Store) : s.Keeps s.flush := by
  unfold flush
  split <;> exact List.prefix_rfl

theorem keeps_writeTimes (s : Store) (position : Option Position) (count : Nat) :
    s.Keeps (s.writeTimes position count) := by
  induction count generalizing s with
  | zero => exact List.prefix_rfl
  | succ count ih =>
    exact keeps_cell 0 position fun value => (s.keeps_emit value).bind fun s' _ => ih s'

theorem keeps_readOnce (s : Store) (position : Option Position) :
    s.Keeps (s.readOnce position) := by
  unfold readOnce
  obtain ⟨received, input⟩ := Input.receive s.input
  cases received with
  | byte value => exact (keeps_setCell _ 0 value.toNat position).of_eq rfl
  | nothing => exact List.prefix_rfl
  | failed reason => exact List.prefix_rfl

theorem keeps_readTimes (s : Store) (position : Option Position) (count : Nat) :
    s.Keeps (s.readTimes position count) := by
  induction count generalizing s with
  | zero => exact List.prefix_rfl
  | succ count ih => exact (s.keeps_readOnce position).bind fun s' _ => ih s'

theorem keeps_scan (s : Store) (direction : Direction) (position : Option Position) :
    s.Keeps (s.scan direction position) := by
  fun_induction scan s direction position with
  | case1 s c hc =>
    obtain ⟨-, rfl⟩ := cell_eq_error_iff.1 hc
    exact List.prefix_rfl
  | case2 => exact List.prefix_rfl
  | case3 s _ _ _ _ ih => exact ih.of_eq rfl

theorem keeps_printRun (s : Store) (position : Option Position) :
    s.Keeps (s.printRun position) := by
  fun_induction printRun s position with
  | case1 s c hc =>
    obtain ⟨-, rfl⟩ := cell_eq_error_iff.1 hc
    exact List.prefix_rfl
  | case2 s => exact s.keeps_flush
  | case3 s value _ _ c he => simpa only [he] using s.keeps_emit value
  | case4 s value _ _ written he _ ih =>
    have hwritten := s.keeps_emit value
    rw [he] at hwritten
    exact List.IsPrefix.trans hwritten (ih.of_eq rfl)

end Keeps

end Store

/-- **No instruction takes output back**, also where it fails. -/
theorem Instruction.keeps_effect (i : Instruction) (w : Width) (s : Store) :
    s.Keeps (i.effect w s) := by
  unfold effect
  simp only [Store.update_eq_setCell]
  split
  · exact s.keeps_setCell _ _ _
  · exact s.keeps_setCell _ _ _
  · split <;> exact List.prefix_rfl
  · split <;> exact List.prefix_rfl
  · exact (s.keeps_writeTimes _ _).bind fun s' _ => s'.keeps_flush
  · exact s.keeps_readTimes _ _
  · split
    · exact s.keeps_setCell _ _ _
    · exact Store.keeps_cell _ _ fun _ => s.keeps_setCell _ _ _
  · split
    · exact List.prefix_rfl
    · exact s.keeps_setCell _ _ _
  · exact s.keeps_setCell _ _ _
  · exact s.keeps_scan _ _
  · exact s.keeps_scan _ _
  · exact s.keeps_printRun _
  all_goals exact List.prefix_rfl

namespace Program

variable {p : Program} {i : Instruction} {m m' : Machine}

theorem written_of_perform (h : p.perform i m = .ok m') :
    m.sink.written.toList <+: m'.sink.written.toList := by
  obtain ⟨-, heffect | ⟨message, hstore⟩⟩ := perform_cases h
  · have hkeeps := i.keeps_effect p.width m.toStore
    rwa [heffect] at hkeeps
  · rw [hstore]
    exact List.prefix_rfl

theorem written_of_perform_error {c : Crash} (h : p.perform i m = .error c) :
    m.sink.written.toList <+: c.sink.written.toList := by
  rcases perform_eq_error h with hcell | heffect
  · obtain ⟨-, rfl⟩ := Store.cell_eq_error_iff.1 hcell
    exact List.prefix_rfl
  · have hkeeps := i.keeps_effect p.width m.toStore
    rwa [heffect] at hkeeps

/-- The rest of a run adds to what was written before it. -/
theorem written_of_resume (p : Program) (headroom : Nat) (m : Machine) :
    m.sink.written.toList <+: Machine.output (p.resume headroom m) := by
  fun_induction resume p headroom m with
  | case1 => exact List.prefix_rfl
  | case2 => exact List.prefix_rfl
  | case3 => exact List.prefix_rfl
  | case4 m i _ _ headroom c hp => exact (written_of_perform_error hp :)
  | case5 m i _ _ headroom m' hp ih => exact (written_of_perform hp :).trans ih

/-! ## 3. How a run ends -/

/-- How a run ends from here on, and with what step count. An instruction
that breaks the run off is counted. -/
inductive Ends (p : Program) : Machine → Nat → Except Crash (Outcome × Machine) → Prop where
  | completed {m : Machine} (finished : p.code[m.counter]? = none) :
      Ends p m m.steps (.ok (.completed, m))
  | outOfSteps {m : Machine} {i : Instruction} (next : p.code[m.counter]? = some i)
      (reached : p.exhausted m = true) : Ends p m m.steps (.ok (.outOfSteps, m))
  | crashed {m : Machine} {i : Instruction} {c : Crash} (next : p.code[m.counter]? = some i)
      (before : p.exhausted m = false)
      (fails : p.perform i { m with steps := m.steps + 1 } = .error c) :
      Ends p m (m.steps + 1) (.error c)
  | step {m m' : Machine} {i : Instruction} {count : Nat} {r : Except Crash (Outcome × Machine)}
      (next : p.code[m.counter]? = some i) (before : p.exhausted m = false)
      (done : p.perform i { m with steps := m.steps + 1 } = .ok m') (rest : Ends p m' count r) :
      Ends p m count r

variable {count limit : Nat} {r : Except Crash (Outcome × Machine)}

theorem steps_succ (h : p.perform i { m with steps := m.steps + 1 } = .ok m') :
    m'.steps = m.steps + 1 := steps_of_perform h

theorem Ends.steps_le (h : p.Ends m count r) : m.steps ≤ count := by
  induction h with
  | completed => exact Nat.le_refl _
  | outOfSteps => exact Nat.le_refl _
  | crashed => exact Nat.le_succ _
  | step next before done rest ih =>
    have hsteps := steps_succ done
    omega

/-- A step counter with enough room shows how a run ends. -/
theorem resume_of_ends (h : p.Ends m count r) {headroom : Nat}
    (hroom : count ≤ m.steps + headroom) : p.resume headroom m = r := by
  induction h generalizing headroom with
  | completed finished => exact resume_end finished headroom
  | outOfSteps next reached => exact resume_exhausted next reached headroom
  | crashed next before fails =>
    obtain ⟨room, rfl⟩ : ∃ room, headroom = room + 1 := ⟨headroom - 1, by omega⟩
    rw [resume_succ next before, fails]
  | step next before done rest ih =>
    have hsteps := steps_succ done
    have hle := rest.steps_le
    obtain ⟨room, rfl⟩ : ∃ room, headroom = room + 1 := ⟨headroom - 1, by omega⟩
    rw [resume_succ next before, done]
    exact ih (by omega)

/-- A run that does not overflow the step counter ends. -/
theorem ends_of_resume {headroom : Nat} (h : ¬ CounterOverflow (p.resume headroom m)) :
    ∃ count, count ≤ m.steps + headroom ∧ p.Ends m count (p.resume headroom m) := by
  fun_induction resume p headroom m with
  | case1 headroom m finished => exact ⟨m.steps, Nat.le_add_right _ _, .completed finished⟩
  | case2 headroom m i next reached =>
    exact ⟨m.steps, Nat.le_add_right _ _, .outOfSteps next reached⟩
  | case3 m => exact absurd ⟨m.sink, rfl⟩ h
  | case4 m i next before headroom c fails =>
    exact ⟨m.steps + 1, by omega, .crashed next (by simpa using before) fails⟩
  | case5 m i next before headroom m' done ih =>
    obtain ⟨count, hcount, hends⟩ := ih h
    have hsteps := steps_succ done
    exact ⟨count, by omega, .step next (by simpa using before) done hends⟩

/-- **Under a limit every run ends**, at the latest when the step count has
reached it. -/
theorem exists_ends (hlimit : p.limit = some limit) (m : Machine) :
    ∃ count r, count ≤ max m.steps limit ∧ p.Ends m count r := by
  -- the induction is on the steps that are left
  induction hleft : limit - m.steps generalizing m with
  | zero =>
    have hreached : p.exhausted m = true := by
      simp only [exhausted, hlimit, decide_eq_true_eq]
      omega
    cases hi : p.code[m.counter]? with
    | none => exact ⟨m.steps, _, Nat.le_max_left _ _, .completed hi⟩
    | some i => exact ⟨m.steps, _, Nat.le_max_left _ _, .outOfSteps hi hreached⟩
  | succ left ih =>
    have hbefore : p.exhausted m = false := by
      simp only [exhausted, hlimit, decide_eq_false_iff_not]
      omega
    cases hi : p.code[m.counter]? with
    | none => exact ⟨m.steps, _, Nat.le_max_left _ _, .completed hi⟩
    | some i =>
      cases hp : p.perform i { m with steps := m.steps + 1 } with
      | error c => exact ⟨m.steps + 1, _, by omega, .crashed hi hbefore hp⟩
      | ok m' =>
        have hsteps := steps_succ hp
        obtain ⟨count, r, hcount, hends⟩ := ih m' (by omega)
        exact ⟨count, r, by omega, .step hi hbefore hp hends⟩

/-- With the same limit or another, an instruction does the same. -/
theorem perform_limit (p : Program) (limit : Option Nat) (i : Instruction) (m : Machine) :
    perform { p with limit } i m = p.perform i m := rfl

theorem exhausted_limit : exhausted { p with limit := some limit } m = decide (limit ≤ m.steps) :=
  rfl

/-- A limit that a run does not exceed changes nothing. -/
theorem Ends.under_limit (h : p.Ends m count r) (hnone : p.limit = none) (hle : count ≤ limit) :
    Ends { p with limit := some limit } m count r := by
  induction h with
  | completed finished => exact .completed finished
  | outOfSteps next reached => simp [exhausted, hnone] at reached
  | crashed next before fails =>
    exact .crashed next (by simp [exhausted_limit]; omega) fails
  | step next before done rest ih =>
    have hsteps := steps_succ done
    have hcount := rest.steps_le
    exact .step next (by simp [exhausted_limit]; omega) done (ih hle)

/-- Below its own step count, a run stops at the limit. -/
theorem Ends.cut (h : p.Ends m count r) (hstart : m.steps ≤ limit) (hlt : limit < count) :
    ∃ m', Ends { p with limit := some limit } m limit (.ok (.outOfSteps, m')) ∧
      m'.steps = limit := by
  induction h with
  | completed finished => omega
  | outOfSteps next reached => omega
  | @crashed m i c next before fails =>
    obtain rfl : m.steps = limit := by omega
    exact ⟨m, .outOfSteps next (by simp [exhausted_limit]), rfl⟩
  | @step m m' i count r next before done rest ih =>
    by_cases hhere : m.steps = limit
    · subst hhere
      exact ⟨m, .outOfSteps next (by simp [exhausted_limit]), rfl⟩
    · have hsteps := steps_succ done
      obtain ⟨final, hends, hfinal⟩ := ih (by omega) hlt
      exact ⟨final, .step next (by simp [exhausted_limit]; omega) done hends, hfinal⟩

/-- A run comes to an outcome, or leaves the tape. -/
def Settled (r : Except Crash (Outcome × Machine)) : Prop :=
  (∃ outcome m, r = .ok (outcome, m)) ∨
    ∃ index position sink, r = .error ⟨.outOfBounds index position, sink⟩

theorem unfailing_of_perform (h : p.perform i m = .ok m') (hsink : m.sink.Unfailing) :
    m'.sink.Unfailing := by
  obtain ⟨-, heffect | ⟨message, hstore⟩⟩ := perform_cases h
  · exact Store.Unfailing.changes hsink (i.changes_of_effect heffect)
  · rw [hstore]
    exact hsink

/-- If no output is refused and all moves to the left have an opposite, an
instruction can only fail beyond the tape. -/
theorem settled_of_perform {c : Crash} (h : p.perform i m = .error c) (hsink : m.sink.Unfailing)
    (hleft : i.opcode = .left → Operand.InRange (-i.value)) : Settled (.error c) := by
  obtain ⟨failure, sink⟩ := c
  rcases perform_eq_error h with hcell | heffect
  · obtain ⟨-, hc⟩ := Store.cell_eq_error_iff.1 hcell
    cases hc
    exact .inr ⟨_, _, _, rfl⟩
  · rcases Instruction.failure_of_effect heffect with (⟨index, position, hc⟩ | ⟨-, hfails⟩) |
      ⟨-, hop, hrange⟩
    · cases hc
      exact .inr ⟨_, _, _, rfl⟩
    · exact absurd hsink hfails
    · exact absurd (hleft hop) hrange

theorem Ends.settled (h : p.Ends m count r) (hsink : m.sink.Unfailing)
    (hleft : ∀ i ∈ p.code, i.opcode = .left → Operand.InRange (-i.value)) : Settled r := by
  induction h with
  | completed => exact .inl ⟨_, _, rfl⟩
  | outOfSteps => exact .inl ⟨_, _, rfl⟩
  | crashed next before fails =>
    exact settled_of_perform fails hsink (hleft _ (Array.mem_of_getElem? next))
  | step next before done rest ih => exact ih (unfailing_of_perform done hsink)

theorem not_counterOverflow_of_settled (h : Settled r) : ¬ CounterOverflow r := by
  rcases h with ⟨outcome, m, rfl⟩ | ⟨index, position, sink, rfl⟩
  · exact Machine.not_counterOverflow_ok _
  · exact Machine.not_counterOverflow_error (by simp)

/-! ## 4. Two limits -/

/-- **Less time, less output**: under a smaller limit a run writes the first
part of what it writes under a larger one. -/
theorem output_resume_le {limit' : Nat} (hle : limit ≤ limit') (headroom : Nat) (m : Machine) :
    Machine.output (resume { p with limit := some limit } headroom m) <+:
      Machine.output (resume { p with limit := some limit' } headroom m) := by
  have hlater {m : Machine} (before : ¬ exhausted { p with limit := some limit } m = true) :
      exhausted { p with limit := some limit' } m = false := by
    simp only [exhausted_limit, decide_eq_true_eq, decide_eq_false_iff_not] at before ⊢
    omega
  fun_induction resume { p with limit := some limit } headroom m with
  | case1 headroom m => exact written_of_resume _ headroom m
  | case2 headroom m => exact written_of_resume _ headroom m
  | case3 m => exact written_of_resume _ 0 m
  | case4 m i next before headroom c fails =>
    have hsame : resume { p with limit := some limit' } (headroom + 1) m = .error c := by
      rw [perform_limit] at fails
      rw [resume_succ (p := { p with limit := some limit' }) next (hlater before), perform_limit,
        fails]
    exact hsame ▸ List.prefix_rfl
  | case5 m i next before headroom m' done ih =>
    have hsame : resume { p with limit := some limit' } (headroom + 1) m =
        resume { p with limit := some limit' } headroom m' := by
      rw [perform_limit] at done
      rw [resume_succ (p := { p with limit := some limit' }) next (hlater before), perform_limit,
        done]
    exact hsame ▸ ih

end Program

/-! ## 5. Whole streams -/

namespace Machine

/-- How the run of a stream ends, and with what step count. -/
def Ends (m : Machine) (code : List Instruction) (w : Width) (limit : Option Nat) (count : Nat)
    (r : Except Crash (Outcome × Machine)) : Prop :=
  Program.Ends { Stream.program code w with limit } (m.entering code) count r

section Limits

variable {m : Machine} {code : List Instruction} {w : Width} {limit : Option Nat} {count : Nat}
  {r : Except Crash (Outcome × Machine)}

theorem execute_of_ends (h : m.Ends code w limit count r) (hcount : count ≤ Size.greatest) :
    m.execute code w limit = r := by
  have hroom : count ≤ m.steps + (Size.greatest - m.steps) := by omega
  exact Program.resume_of_ends h hroom

theorem ends_of_execute (hsteps : m.steps ≤ Size.greatest) (h : m.execute code w limit = r)
    (hr : ¬ CounterOverflow r) : ∃ count ≤ Size.greatest, m.Ends code w limit count r := by
  subst h
  obtain ⟨count, hcount, hends⟩ := Program.ends_of_resume hr
  have hroom : count ≤ m.steps + (Size.greatest - m.steps) := hcount
  exact ⟨count, by omega, hends⟩

theorem settled_of_ends (h : m.Ends code w limit count r) (hsink : m.sink.Unfailing)
    (hleft : ∀ i ∈ code, i.opcode = .left → Operand.InRange (-i.value)) : Program.Settled r :=
  Program.Ends.settled h hsink fun i hi => hleft i (List.mem_toArray.1 hi)

/-- Under a limit of 64 bits the step counter suffices. -/
theorem ends_execute (m : Machine) (code : List Instruction) (w : Width) {limit : Nat}
    (hsteps : m.steps ≤ Size.greatest) (hlimit : limit ≤ Size.greatest) :
    ∃ count ≤ max m.steps limit,
      m.Ends code w (some limit) count (m.execute code w (some limit)) := by
  obtain ⟨count, r, hcount, hends⟩ : ∃ count r, count ≤ max m.steps limit ∧
      m.Ends code w (some limit) count r := Program.exists_ends rfl (m.entering code)
  have hr : m.execute code w (some limit) = r := execute_of_ends hends (by omega)
  exact ⟨count, hcount, hr ▸ hends⟩

/-- **A step limit only cuts a run short.** Let no output be refused, and let
no instruction move to the left by a distance without opposite.

* With a limit every run ends, by an outcome or beyond the tape, and so does
  every walk over the tape within a single instruction.
* A run without limit that ends has a step count. With at least as many
  steps allowed the result is the same. With fewer, but not fewer than were
  taken before, the run stops at the limit, with the first part of the
  output.
* With fewer steps allowed, a run always writes the first part of what it
  writes with more. -/
theorem limit_truncates (hsteps : m.steps ≤ Size.greatest) (hsink : m.sink.Unfailing)
    (hleft : ∀ i ∈ code, i.opcode = .left → Operand.InRange (-i.value)) :
    (∀ limit ≤ Size.greatest, Program.Settled (m.execute code w (some limit)) ∧
      ∃ count ≤ max m.steps limit,
        m.Ends code w (some limit) count (m.execute code w (some limit))) ∧
    (∀ i ∈ code, ∀ direction, i.opcode.walk? = some direction → ∀ s : Store, s.sink.Unfailing →
      s.WalkStops direction i.position (i.effect w s)) ∧
    (∀ r, m.execute code w none = r ∧ Program.Settled r ↔
      ∃ count ≤ Size.greatest, m.Ends code w none count r) ∧
    (∀ count r, m.Ends code w none count r → count ≤ Size.greatest →
      (∀ limit, count ≤ limit → m.execute code w (some limit) = r) ∧
      ∀ limit, m.steps ≤ limit → limit < count →
        ∃ m', m.execute code w (some limit) = .ok (.outOfSteps, m') ∧ m'.steps = limit ∧
          m'.sink.written.toList <+: output r) ∧
    ∀ limit limit', limit ≤ limit' →
      output (m.execute code w (some limit)) <+: output (m.execute code w (some limit')) := by
  have houtput : ∀ limit limit', limit ≤ limit' →
      output (m.execute code w (some limit)) <+: output (m.execute code w (some limit')) :=
    fun limit limit' hle => Program.output_resume_le (p := Stream.program code w) hle _ _
  have hsame : ∀ count r, m.Ends code w none count r → count ≤ Size.greatest →
      ∀ limit, count ≤ limit → m.execute code w (some limit) = r := by
    intro count r hends hcount limit hle
    have hunder : m.Ends code w (some limit) count r := Program.Ends.under_limit hends rfl hle
    exact execute_of_ends hunder hcount
  refine ⟨fun limit hlimit => ?_, fun i _ direction hwalk s hs => ?_, fun r => ⟨?_, ?_⟩,
    fun count r hends hcount => ⟨hsame count r hends hcount, ?_⟩, houtput⟩
  · obtain ⟨count, hcount, hends⟩ := ends_execute m code w hsteps hlimit
    exact ⟨settled_of_ends hends hsink hleft, count, hcount, hends⟩
  · exact Instruction.walkStops_of_effect hwalk w hs
  · rintro ⟨hr, hsettled⟩
    exact ends_of_execute hsteps hr (Program.not_counterOverflow_of_settled hsettled)
  · rintro ⟨count, hcount, hends⟩
    exact ⟨execute_of_ends hends hcount, settled_of_ends hends hsink hleft⟩
  · intro limit hstart hlt
    obtain ⟨m', hcut, hfinal⟩ : ∃ m', m.Ends code w (some limit) limit (.ok (.outOfSteps, m')) ∧
        m'.steps = limit := Program.Ends.cut hends hstart hlt
    have hrun := execute_of_ends hcut (by omega)
    refine ⟨m', hrun, hfinal, ?_⟩
    have hpart := houtput limit count (by omega)
    rw [hrun, hsame count r hends hcount count (Nat.le_refl _)] at hpart
    exact hpart

end Limits

/-- A run from step count 5 over a stray bracket, which writes one byte and
then leaves the tape with step count 10. -/
theorem limit_truncates_off_tape :
    let m : Machine := { tape := #[0], steps := 5 }
    let code : List Instruction := [⟨.loopEnd, 9, 0, none⟩, ⟨.add, 65, 0, none⟩,
      ⟨.write, 1, 0, none⟩, ⟨.left, 1, 0, none⟩, ⟨.write, 1, 0, some ⟨1, 5⟩⟩]
    let r : Except Crash (Outcome × Machine) :=
      .error ⟨.outOfBounds (-1) (some ⟨1, 5⟩), { written := #[65] }⟩
    m.steps ≤ Size.greatest ∧ m.sink.Unfailing ∧
      (∀ i ∈ code, i.opcode = .left → Operand.InRange (-i.value)) ∧
      m.Ends code .bits8 none 10 r ∧
      m.execute code .bits8 none = r ∧ m.execute code .bits8 (some 10) = r ∧
      ∃ m', m.execute code .bits8 (some 9) = .ok (.outOfSteps, m') ∧ m'.steps = 9 ∧
        m'.sink.written.toList <+: [65] := by
  intro m code r
  have hsteps : m.steps ≤ Size.greatest := by decide
  have hsink : m.sink.Unfailing := ⟨rfl, rfl⟩
  have hleft : ∀ i ∈ code, i.opcode = .left → Operand.InRange (-i.value) := by decide
  have hends : m.Ends code .bits8 none 10 r :=
    .step rfl rfl rfl (.step rfl rfl rfl (.step rfl rfl rfl (.step rfl rfl rfl
      (.crashed rfl rfl rfl))))
  obtain ⟨-, -, hresult, htruncates, -⟩ := limit_truncates (w := .bits8) hsteps hsink hleft
  obtain ⟨hsame, hcut⟩ := htruncates 10 r hends (by decide)
  exact ⟨hsteps, hsink, hleft, hends, ((hresult r).2 ⟨10, by decide, hends⟩).1,
    hsame 10 (Nat.le_refl _), hcut 9 (by decide) (by decide)⟩

end Machine

end TapeCompiler
