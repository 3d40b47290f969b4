/-
TapeCompiler.Proofs.ControlFlow — the machine carries out the structured
meaning of a stream.

The machine knows a program counter and a table of labels. A skip lands on
the closing bracket, which then tests once more, and a jump back lands on
the opening one. `Program.follows_eval` says that for all that it does what
`Tree.eval` says: it takes the same number of steps, leaves the same store,
fails in the same way, and does not come to an end where the evaluation
does not.

* `Machine.Completes`, `Machine.Fails` and `Machine.RunsForever` are what a
  run without step limit can come to while the step counter has room. They
  are stated with a headroom of any size, and `Machine.completes_iff_execute`
  and `Machine.fails_iff_execute` bring them back to 64 bits.
* `Machine.completes_iff_eval`, `Machine.fails_iff_eval` and
  `Machine.runsForever_iff_eval` translate all three to trees.
-/
import TapeCompiler.Machine
import TapeCompiler.Proofs.Structured
import TapeCompiler.Proofs.JumpLabels

namespace TapeCompiler

/-! ## 1. What a run comes to -/

/-- The run broke off because the step counter could not be raised. -/
def CounterOverflow (r : Except Crash (Outcome × Machine)) : Prop :=
  ∃ sink, r = .error ⟨.overflow .add, sink⟩

namespace Machine

/-- The run of a stream without step limit completes and leaves `m'`, if the
step counter has room enough. -/
def Completes (m : Machine) (code : List Instruction) (w : Width) (m' : Machine) : Prop :=
  ∃ headroom, m.executeWithin headroom code w none = .ok (.completed, m')

/-- The run of a stream without step limit crashes, and not because of the
step counter. -/
def Fails (m : Machine) (code : List Instruction) (w : Width) (c : Crash) : Prop :=
  c.failure ≠ .overflow .add ∧ ∃ headroom, m.executeWithin headroom code w none = .error c

/-- The run of a stream without step limit never comes to an end: it exceeds
a step counter of any size. -/
def RunsForever (m : Machine) (code : List Instruction) (w : Width) : Prop :=
  ∀ headroom, CounterOverflow (m.executeWithin headroom code w none)

end Machine

/-! ## 2. Room on the step counter -/

namespace Program

theorem resume_end {p : Program} {m : Machine} (h : p.code[m.counter]? = none) (headroom : Nat) :
    p.resume headroom m = .ok (.completed, m) := by
  unfold resume
  simp only [h]

theorem resume_exhausted {p : Program} {m : Machine} {i : Instruction}
    (h : p.code[m.counter]? = some i) (hlimit : p.exhausted m = true) (headroom : Nat) :
    p.resume headroom m = .ok (.outOfSteps, m) := by
  unfold resume
  simp only [h, hlimit, if_true]

/-- At its step limit a run stops where it is. -/
theorem resume_of_exhausted {p : Program} {m : Machine} (h : p.exhausted m = true)
    (headroom : Nat) : ∃ outcome, p.resume headroom m = .ok (outcome, m) := by
  cases hi : p.code[m.counter]? with
  | none => exact ⟨_, resume_end hi headroom⟩
  | some i => exact ⟨_, resume_exhausted hi h headroom⟩

theorem resume_zero {p : Program} {m : Machine} {i : Instruction}
    (h : p.code[m.counter]? = some i) (hlimit : p.exhausted m = false) :
    p.resume 0 m = .error ⟨.overflow .add, m.sink⟩ := by
  unfold resume
  simp only [h, hlimit]
  rfl

theorem resume_succ {p : Program} {m : Machine} {i : Instruction}
    (h : p.code[m.counter]? = some i) (hlimit : p.exhausted m = false) (headroom : Nat) :
    p.resume (headroom + 1) m =
      match p.perform i { m with steps := m.steps + 1 } with
      | .error c => .error c
      | .ok m' => p.resume headroom m' := by
  conv => lhs; unfold resume
  simp only [h, hlimit]
  rfl

/-- More headroom changes nothing but a counter overflow. -/
theorem resume_mono {p : Program} {headroom headroom' : Nat} {m : Machine}
    {r : Except Crash (Outcome × Machine)} (h : p.resume headroom m = r)
    (hr : ¬ CounterOverflow r) (hle : headroom ≤ headroom') : p.resume headroom' m = r := by
  induction headroom generalizing headroom' m with
  | zero =>
    cases hi : p.code[m.counter]? with
    | none => rwa [resume_end hi] at h ⊢
    | some i =>
      cases hlimit : p.exhausted m with
      | true => rwa [resume_exhausted hi hlimit] at h ⊢
      | false => exact absurd ⟨m.sink, h ▸ resume_zero hi hlimit⟩ hr
  | succ headroom ih =>
    obtain ⟨more, rfl⟩ : ∃ more, headroom' = more + 1 := ⟨headroom' - 1, by omega⟩
    cases hi : p.code[m.counter]? with
    | none => rwa [resume_end hi] at h ⊢
    | some i =>
      cases hlimit : p.exhausted m with
      | true => rwa [resume_exhausted hi hlimit] at h ⊢
      | false =>
        rw [resume_succ hi hlimit] at h ⊢
        cases hp : p.perform i { m with steps := m.steps + 1 } with
        | error c => rwa [hp] at h
        | ok m' =>
          rw [hp] at h
          exact ih h (Nat.le_of_succ_le_succ hle)

end Program

namespace Machine

theorem executeWithin_mono {headroom headroom' : Nat} {m : Machine} {code : List Instruction}
    {w : Width} {limit : Option Nat} {r : Except Crash (Outcome × Machine)}
    (h : m.executeWithin headroom code w limit = r) (hr : ¬ CounterOverflow r)
    (hle : headroom ≤ headroom') : m.executeWithin headroom' code w limit = r :=
  Program.resume_mono h hr hle

/-- A result that does not depend on the counter is the result of every run
that does not overflow it. -/
theorem executeWithin_unique {headroom headroom' : Nat} {m : Machine} {code : List Instruction}
    {w : Width} {limit : Option Nat} {r : Except Crash (Outcome × Machine)}
    (h : m.executeWithin headroom code w limit = r) (hr : ¬ CounterOverflow r)
    (h' : ¬ CounterOverflow (m.executeWithin headroom' code w limit)) :
    m.executeWithin headroom' code w limit = r := by
  rcases Nat.le_total headroom headroom' with hle | hle
  · exact executeWithin_mono h hr hle
  · exact (executeWithin_mono rfl h' hle).symm.trans h

theorem not_counterOverflow_ok (x : Outcome × Machine) : ¬ CounterOverflow (.ok x) := by
  rintro ⟨sink, h⟩
  cases h

theorem not_counterOverflow_error {c : Crash} (h : c.failure ≠ .overflow .add) :
    ¬ CounterOverflow (.error c) := by
  rintro ⟨sink, he⟩
  cases he
  exact h rfl

/-- Where 64 bits suffice for the step counter, a stream completes exactly
if executing it does. -/
theorem completes_iff_execute {m m' : Machine} {code : List Instruction} {w : Width}
    (h : ¬ CounterOverflow (m.execute code w none)) :
    m.Completes code w m' ↔ m.execute code w none = .ok (.completed, m') := by
  constructor
  · rintro ⟨headroom, hr⟩
    exact executeWithin_unique hr (not_counterOverflow_ok _) h
  · exact fun hr => ⟨_, hr⟩

/-- Where 64 bits suffice for the step counter, a stream fails exactly if
executing it does. -/
theorem fails_iff_execute {m : Machine} {code : List Instruction} {w : Width} {c : Crash}
    (h : ¬ CounterOverflow (m.execute code w none)) :
    m.Fails code w c ↔ m.execute code w none = .error c := by
  constructor
  · rintro ⟨hc, headroom, hr⟩
    exact executeWithin_unique hr (not_counterOverflow_error hc) h
  · intro hr
    refine ⟨fun hc => h ⟨c.sink, ?_⟩, _, hr⟩
    rw [hr, ← hc]

end Machine

/-! ## 3. One instruction -/

/-- The program that the machine makes of a stream. -/
def Stream.program (code : List Instruction) (w : Width) : Program :=
  { code := code.toArray, jumps := (JumpTable.ofStream code).1, width := w }

/-- The machine at the first instruction of a stream. -/
def Machine.entering (m : Machine) (code : List Instruction) : Machine :=
  { m with counter := 0, warnings := m.warnings ++ (JumpTable.ofStream code).2 }

namespace Program

/-- The program holds this piece of code from `index` on. -/
def At (p : Program) (index : Nat) (code : List Instruction) : Prop :=
  ∃ post, p.code.toList.drop index = code ++ post

theorem At.head {p : Program} {index : Nat} {i : Instruction} {code : List Instruction}
    (h : p.At index (i :: code)) : p.code[index]? = some i := by
  obtain ⟨post, hpost⟩ := h
  have := congrArg (fun l => l[0]?) hpost
  simpa using this

theorem At.right {p : Program} {index : Nat} {code code' : List Instruction}
    (h : p.At index (code ++ code')) : p.At (index + code.length) code' := by
  obtain ⟨post, hpost⟩ := h
  refine ⟨post, ?_⟩
  rw [← List.drop_drop, hpost, List.append_assoc, List.drop_left]

theorem At.left {p : Program} {index : Nat} {code code' : List Instruction}
    (h : p.At index (code ++ code')) : p.At index code := by
  obtain ⟨post, hpost⟩ := h
  exact ⟨code' ++ post, by rw [hpost, List.append_assoc]⟩

theorem At.tail {p : Program} {index : Nat} {i : Instruction} {code : List Instruction}
    (h : p.At index (i :: code)) : p.At (index + 1) code := by
  have happend : p.At index ([i] ++ code) := h
  exact happend.right

theorem toStore_jump (m : Machine) (target : Option Nat) (i : Instruction) :
    (m.jump target i).steps = m.steps ∧ ((m.jump target i).toStore = m.toStore ∨
      ∃ message, (m.jump target i).toStore = m.toStore.warn message i.position) := by
  cases target with
  | none => exact ⟨rfl, .inr ⟨_, rfl⟩⟩
  | some index => exact ⟨rfl, .inl rfl⟩

/-- **What an instruction comes to**: its effect on the store, or a remark
about a jump without target. Either way it counts as no step by itself. -/
theorem perform_cases {p : Program} {i : Instruction} {m m' : Machine}
    (h : p.perform i m = .ok m') :
    m'.steps = m.steps ∧ (i.effect p.width m.toStore = .ok m'.toStore ∨
      ∃ message, m'.toStore = m.toStore.warn message i.position) := by
  have hbracket (hi : i.effect p.width m.toStore = .ok m.toStore)
      (hm : (∃ target, m' = m.jump target i) ∨ m' = m.next) :
      m'.steps = m.steps ∧ (i.effect p.width m.toStore = .ok m'.toStore ∨
        ∃ message, m'.toStore = m.toStore.warn message i.position) := by
    rcases hm with ⟨target, rfl⟩ | rfl
    · obtain ⟨hsteps, hstore⟩ := toStore_jump m target i
      exact ⟨hsteps, hstore.imp_left fun hstore => by rw [hstore, hi]⟩
    · exact ⟨rfl, .inl hi⟩
  unfold perform at h
  split at h
  · rename_i hop
    obtain ⟨value, -, h⟩ := bind_eq_ok_iff.1 h
    refine hbracket (by simp [Instruction.effect, hop]) ?_
    split at h <;> cases h
    · exact .inl ⟨_, rfl⟩
    · exact .inr rfl
  · rename_i hop
    obtain ⟨value, -, h⟩ := bind_eq_ok_iff.1 h
    refine hbracket (by simp [Instruction.effect, hop]) ?_
    split at h <;> cases h
    · exact .inl ⟨_, rfl⟩
    · exact .inr rfl
  · rename_i hop
    obtain ⟨value, -, h⟩ := bind_eq_ok_iff.1 h
    refine hbracket (by simp [Instruction.effect, hop]) ?_
    split at h <;> cases h
    · exact .inr rfl
    · exact .inl ⟨_, rfl⟩
  · obtain ⟨s, hs, h⟩ := bind_eq_ok_iff.1 h
    cases h
    exact ⟨rfl, .inl hs⟩

/-- How an instruction breaks a run off. -/
theorem perform_eq_error {p : Program} {i : Instruction} {m : Machine} {c : Crash}
    (h : p.perform i m = .error c) :
    m.cell 0 i.position = .error c ∨ i.effect p.width m.toStore = .error c := by
  unfold perform at h
  split at h
  case h_4 =>
    rcases bind_eq_error_iff.1 h with hi | ⟨s, -, h⟩
    · exact .inr hi
    · cases h
  all_goals
    rcases bind_eq_error_iff.1 h with hcell | ⟨value, -, h⟩
    · exact .inl hcell
    · split at h <;> cases h

theorem steps_of_perform {p : Program} {i : Instruction} {m m' : Machine}
    (h : p.perform i m = .ok m') : m'.steps = m.steps := (perform_cases h).1

/-- An instruction that is no bracket does its work, and the next one follows. -/
theorem perform_plain {p : Program} {i : Instruction} (plain : i.Plain) (s : Store)
    (steps index : Nat) :
    p.perform i ⟨s, steps, index⟩ =
      (i.effect p.width s).map (fun s' => ⟨s', steps, index + 1⟩) := by
  obtain ⟨hopen, hclose⟩ := plain
  unfold perform
  cases hop : i.opcode <;> simp_all [Opcode.opensBlock, Opcode.closesBlock] <;>
    cases i.effect p.width s <;> rfl

theorem perform_plain_ok {p : Program} {i : Instruction} (plain : i.Plain) {s s₁ : Store}
    (h : i.effect p.width s = .ok s₁) (steps index : Nat) :
    p.perform i ⟨s, steps, index⟩ = .ok ⟨s₁, steps, index + 1⟩ := by
  rw [perform_plain plain, h]
  rfl

theorem perform_plain_error {p : Program} {i : Instruction} (plain : i.Plain) {s : Store}
    {c : Crash} (h : i.effect p.width s = .error c) (steps index : Nat) :
    p.perform i ⟨s, steps, index⟩ = .error c := by
  rw [perform_plain plain, h]
  rfl

/-- An opening bracket skips on zero and enters otherwise. -/
theorem perform_start {p : Program} {start close : Instruction} (closes : close.Closes start)
    {s : Store} {value stop : Nat} (hcell : s.cell 0 start.position = .ok value)
    (hstop : p.jumps.stop? start.value = some stop) (steps index : Nat) :
    p.perform start ⟨s, steps, index⟩ =
      .ok ⟨s, steps, if value = 0 then stop else index + 1⟩ := by
  rcases closes.kinds with ⟨hs, -⟩ | ⟨hs, -⟩ <;>
    simp only [perform, hs, hcell, hstop, bind, Except.bind, Machine.jump, Machine.goTo,
      Machine.next] <;> split <;> rfl

theorem perform_start_error {p : Program} {start close : Instruction}
    (closes : close.Closes start) {s : Store} {c : Crash}
    (hcell : s.cell 0 start.position = .error c) (steps index : Nat) :
    p.perform start ⟨s, steps, index⟩ = .error c := by
  rcases closes.kinds with ⟨hs, -⟩ | ⟨hs, -⟩ <;>
    simp only [perform, hs, hcell, bind, Except.bind]

theorem perform_loopEnd {p : Program} {close : Instruction} (hc : close.opcode = .loopEnd)
    {s : Store} {value start : Nat} (hcell : s.cell 0 close.position = .ok value)
    (hstart : p.jumps.start? close.value = some start) (steps index : Nat) :
    p.perform close ⟨s, steps, index⟩ =
      .ok ⟨s, steps, if value = 0 then index + 1 else start⟩ := by
  simp only [perform, hc, hcell, hstart, bind, Except.bind, Machine.jump, Machine.goTo,
    Machine.next]
  split <;> rfl

theorem perform_loopEnd_error {p : Program} {close : Instruction} (hc : close.opcode = .loopEnd)
    {s : Store} {c : Crash} (hcell : s.cell 0 close.position = .error c) (steps index : Nat) :
    p.perform close ⟨s, steps, index⟩ = .error c := by
  simp only [perform, hc, hcell, bind, Except.bind]

theorem perform_label {p : Program} {close : Instruction} (hc : close.opcode = .label)
    (s : Store) (steps index : Nat) :
    p.perform close ⟨s, steps, index⟩ = .ok ⟨s, steps, index + 1⟩ := by
  simp only [perform, hc, Instruction.effect, bind, Except.bind, Machine.next]
  rfl

/-- A closing bracket that finds zero lets the run go on behind it. -/
theorem perform_close_zero {p : Program} {start close : Instruction}
    (closes : close.Closes start) {s : Store} (hcell : s.cell 0 start.position = .ok 0)
    (steps index : Nat) :
    p.perform close ⟨s, steps, index⟩ = .ok ⟨s, steps, index + 1⟩ := by
  rcases closes.kinds with ⟨-, hc⟩ | ⟨-, hc⟩
  · have hclose := Tree.cell_eq_ok_of_cell close.position hcell
    simp only [perform, hc, hclose, bind, Except.bind, if_true]
    rfl
  · exact perform_label hc s steps index

/-! ## 4. The machine follows the evaluation -/

/-- From `index` on, the machine does what the evaluation in `rounds` rounds
came to, and then stands at `stop`. An evaluation that needs more rounds
says that the machine takes more than `rounds` steps. -/
def Follows (p : Program) (index stop : Nat) (s : Store) (rounds : Nat)
    (result : Option (Nat × Except Crash Store)) : Prop :=
  ∀ headroom steps,
    match result with
    | none => headroom ≤ rounds → CounterOverflow (p.resume headroom ⟨s, steps, index⟩)
    | some (n, r) =>
      (headroom < n → CounterOverflow (p.resume headroom ⟨s, steps, index⟩)) ∧
        (n ≤ headroom → p.resume headroom ⟨s, steps, index⟩ =
          match r with
          | .error c => .error c
          | .ok s' => p.resume (headroom - n) ⟨s', steps + n, stop⟩)

namespace Follows

variable {p : Program} {index stop rounds : Nat} {s s₁ : Store} {i : Instruction}

/-- Nothing done, nothing left to do. -/
theorem stay (p : Program) (index rounds : Nat) (s : Store) :
    p.Follows index index s rounds (some (0, .ok s)) :=
  fun _ _ => ⟨fun h => absurd h (Nat.not_lt_zero _), fun _ => rfl⟩

/-- One instruction more at the front. It takes a step, which pays for one
round. -/
theorem dispatch {next : Nat} {result : Option (Nat × Except Crash Store)}
    (hlimit : p.limit = none) (hi : p.code[index]? = some i)
    (hperform : ∀ steps, p.perform i ⟨s, steps, index⟩ = .ok ⟨s₁, steps, next⟩)
    (h : p.Follows next stop s₁ rounds result) :
    p.Follows index stop s (rounds + 1) (Tree.delay 1 result) := by
  intro headroom steps
  have hrun (m : Machine) : p.exhausted m = false := by simp [exhausted, hlimit]
  have hfirst : p.resume 0 ⟨s, steps, index⟩ = .error ⟨.overflow .add, s.sink⟩ :=
    resume_zero hi (hrun _)
  have hstep (headroom : Nat) : p.resume (headroom + 1) ⟨s, steps, index⟩ =
      p.resume headroom ⟨s₁, steps + 1, next⟩ := by
    rw [resume_succ hi (hrun _), hperform]
  cases headroom with
  | zero =>
    cases result with
    | none => exact fun _ => ⟨_, hfirst⟩
    | some x => exact ⟨fun _ => ⟨_, hfirst⟩, fun hle => absurd hle (by omega)⟩
  | succ headroom =>
    have hnext := h headroom (steps + 1)
    cases result with
    | none =>
      intro hle
      rw [hstep]
      exact hnext (by omega)
    | some x =>
      obtain ⟨n, r⟩ := x
      refine ⟨fun hlt => ?_, fun hle => ?_⟩
      · rw [hstep]
        exact hnext.1 (by omega)
      · rw [hstep, hnext.2 (by omega), show headroom + 1 - (n + 1) = headroom - n by omega,
          show steps + 1 + n = steps + (n + 1) by omega]

/-- The instruction at the front crashes. -/
theorem crash {c : Crash} (stop rounds : Nat) (hlimit : p.limit = none)
    (hi : p.code[index]? = some i)
    (hperform : ∀ steps, p.perform i ⟨s, steps, index⟩ = .error c) :
    p.Follows index stop s rounds (some (1, .error c)) := by
  intro headroom steps
  have hrun (m : Machine) : p.exhausted m = false := by simp [exhausted, hlimit]
  refine ⟨fun hlt => ?_, fun hle => ?_⟩
  · obtain rfl : headroom = 0 := by omega
    exact ⟨_, resume_zero hi (hrun _)⟩
  · obtain ⟨less, rfl⟩ : ∃ less, headroom = less + 1 := ⟨headroom - 1, by omega⟩
    rw [resume_succ hi (hrun _), hperform]

/-- Without a step nothing is done where there is an instruction left. -/
theorem never (hlimit : p.limit = none) (hi : p.code[index]? = some i) :
    p.Follows index stop s 0 none := by
  intro headroom steps hle
  obtain rfl : headroom = 0 := by omega
  exact ⟨_, resume_zero hi (by simp [exhausted, hlimit])⟩

/-- Fewer rounds promise less. -/
theorem fewer {rounds' : Nat} {result : Option (Nat × Except Crash Store)}
    (h : p.Follows index stop s rounds result) (hle : rounds' ≤ rounds) :
    p.Follows index stop s rounds' result := by
  intro headroom steps
  have hfull := h headroom steps
  cases result with
  | none => exact fun hle' => hfull (Nat.le_trans hle' hle)
  | some x => exact hfull

/-- Two pieces of code one after the other. -/
theorem append {middle n : Nat} {result : Option (Nat × Except Crash Store)}
    (h : p.Follows index middle s rounds (some (n, .ok s₁)))
    (h' : p.Follows middle stop s₁ rounds result) :
    p.Follows index stop s rounds (Tree.delay n result) := by
  intro headroom steps
  obtain ⟨hshort, hlong⟩ := h headroom steps
  have hthen := h' (headroom - n) (steps + n)
  cases result with
  | none =>
    intro hle
    rcases Nat.lt_or_ge headroom n with hlt | hge
    · exact hshort hlt
    · rw [hlong hge]
      exact hthen (by omega)
  | some x =>
    obtain ⟨k, r⟩ := x
    refine ⟨fun hlt => ?_, fun hle => ?_⟩
    · rcases Nat.lt_or_ge headroom n with hlt' | hge
      · exact hshort hlt'
      · rw [hlong hge]
        exact hthen.1 (by omega)
    · rw [hlong (by omega)]
      simp only
      rw [hthen.2 (by omega), show headroom - n - k = headroom - (k + n) by omega,
        show steps + n + k = steps + (k + n) by omega]

/-- A piece of code that is never left has nothing behind it. -/
theorem append_none {middle : Nat} (h : p.Follows index middle s rounds none) :
    p.Follows index stop s rounds none := h

theorem append_error {middle n : Nat} {c : Crash}
    (h : p.Follows index middle s rounds (some (n, .error c))) :
    p.Follows index stop s rounds (some (n, .error c)) := h

end Follows

theorem loopEnd_of_ne_guard {start close : Instruction} (closes : close.Closes start)
    (h : start.opcode ≠ .guard) : close.opcode = .loopEnd := by
  rcases closes.kinds with ⟨-, hc⟩ | ⟨hs, -⟩
  · exact hc
  · exact absurd hs h

/-- Where the parts of a block stand. -/
theorem At.block {p : Program} {index : Nat} {start close : Instruction} {body rest : Tree}
    {closes : close.Closes start} (h : p.At index (Tree.block start body close closes rest).code) :
    p.code[index]? = some start ∧ p.At (index + 1) body.code ∧
      p.code[index + 1 + body.code.length]? = some close ∧
      p.At (index + 1 + body.code.length + 1) rest.code := by
  have hinner : p.At (index + 1) (body.code ++ close :: rest.code) := At.tail h
  exact ⟨At.head h, hinner.left, hinner.right.head, hinner.right.tail⟩

theorem length_block (index : Nat) (start close : Instruction) (body rest : Tree)
    (closes : close.Closes start) :
    index + (Tree.block start body close closes rest).code.length =
      index + 1 + body.code.length + 1 + rest.code.length := by
  simp only [Tree.code_block, List.length_cons, List.length_append]
  omega

/-- The body of a block that is entered, between its two brackets. -/
theorem Follows.body {p : Program} {index stop rounds n value : Nat} {s s₁ : Store}
    {start close : Instruction} {body rest : Tree} {closes : close.Closes start}
    {result : Option (Nat × Except Crash Store)} (hlimit : p.limit = none)
    (hat : p.At index (Tree.block start body close closes rest).code)
    (hstop : p.jumps.stop? start.value = some (index + 1 + body.code.length))
    (hcell : s.cell 0 start.position = .ok (value + 1))
    (hbody : p.Follows (index + 1) (index + 1 + body.code.length) s rounds (some (n, .ok s₁)))
    (hclose : p.Follows (index + 1 + body.code.length) stop s₁ rounds result) :
    p.Follows index stop s rounds (Tree.delay (n + 1) result) := by
  have henter := perform_start (p := p) closes hcell hstop
  have h := Follows.dispatch hlimit hat.block.1 (fun steps => by simpa using henter steps index)
    (hbody.append hclose)
  rw [Tree.delay_delay] at h
  exact h.fewer (Nat.le_succ _)

/-- **The machine follows the evaluation of a tree**, wherever the tree
stands in a program that links its brackets. -/
theorem follows_eval {p : Program} (hlimit : p.limit = none) {t : Tree} {index : Nat}
    (hat : p.At index t.code) (hlinked : t.Linked p.jumps index) (rounds : Nat) (s : Store) :
    p.Follows index (index + t.code.length) s rounds (t.eval p.width rounds s) := by
  fun_induction Tree.eval p.width rounds t s generalizing index with
  | case1 rounds s => exact Follows.stay p index rounds s
  | case2 _ _ _ plain _ _ heffect =>
    exact Follows.crash _ _ hlimit hat.head fun steps =>
      perform_plain_error plain heffect steps index
  | case3 _ _ _ plain rest _ heffect ih =>
    have h := Follows.dispatch hlimit hat.head
      (fun steps => perform_plain_ok plain heffect steps index) (ih hat.tail hlinked)
    rw [Tree.code_step, List.length_cons, Nat.add_comm rest.code.length, ← Nat.add_assoc]
    exact h.fewer (Nat.le_succ _)
  | case4 _ _ _ _ _ closes _ _ hcell =>
    exact Follows.crash _ _ hlimit hat.head fun steps =>
      perform_start_error closes hcell steps index
  | case5 _ _ start body close closes rest hcell ih =>
    obtain ⟨hstart, -, hclose, hrest⟩ := hat.block
    obtain ⟨hstop, -, -, hlinkedr⟩ := hlinked
    -- the skip lands on the closing bracket, which finds the zero again
    have hlast := Follows.dispatch hlimit hclose
      (fun steps => perform_close_zero closes hcell steps _) (ih hrest hlinkedr)
    have h := Follows.dispatch hlimit hstart
      (fun steps => perform_start closes hcell hstop steps index) hlast
    rw [Tree.delay_delay] at h
    rw [length_block]
    exact h.fewer (by omega)
  | case6 _ _ start body close closes rest _ hcell hbody ih =>
    obtain ⟨hstart, hbodyAt, -, -⟩ := hat.block
    obtain ⟨hstop, -, hlinkedb, -⟩ := hlinked
    have hnone := ih hbodyAt hlinkedb
    rw [hbody] at hnone
    have h := Follows.dispatch hlimit hstart
      (fun steps => perform_start closes hcell hstop steps index) hnone
    exact h.append_none.fewer (Nat.le_succ _)
  | case7 _ _ start body close closes rest _ hcell n c hbody ih =>
    obtain ⟨hstart, hbodyAt, -, -⟩ := hat.block
    obtain ⟨hstop, -, hlinkedb, -⟩ := hlinked
    have herror := ih hbodyAt hlinkedb
    rw [hbody] at herror
    have h := Follows.dispatch hlimit hstart
      (fun steps => perform_start closes hcell hstop steps index) herror
    exact h.append_error.fewer (Nat.le_succ _)
  | case8 _ _ start body close closes rest _ hcell n s₁ hbody hkind ihb ihr =>
    obtain ⟨-, hbodyAt, hclose, hrest⟩ := hat.block
    obtain ⟨hstop, -, hlinkedb, hlinkedr⟩ := hlinked
    have hlabel : close.opcode = .label := by
      rcases closes.kinds with ⟨hs, -⟩ | ⟨-, hc⟩
      · simp [hkind] at hs
      · exact hc
    have hfollows := ihb hbodyAt hlinkedb
    rw [hbody] at hfollows
    have hlast := Follows.dispatch hlimit hclose
      (fun steps => perform_label hlabel s₁ steps _) (ihr hrest hlinkedr)
    have h := Follows.body hlimit hat hstop hcell hfollows (hlast.fewer (Nat.le_succ _))
    rw [Tree.delay_delay, Nat.add_comm 1] at h
    rwa [length_block]
  | case9 rounds _ start body close closes rest _ hcell n s₁ hbody hkind c hcloseCell ih =>
    obtain ⟨-, hbodyAt, hclose, -⟩ := hat.block
    obtain ⟨hstop, -, hlinkedb, -⟩ := hlinked
    have hend := loopEnd_of_ne_guard closes hkind
    have hfollows := ih hbodyAt hlinkedb
    rw [hbody] at hfollows
    have hlast := Follows.crash (index + (Tree.block start body close closes rest).code.length)
      rounds hlimit hclose fun steps => perform_loopEnd_error hend hcloseCell steps _
    have h := Follows.body hlimit hat hstop hcell hfollows hlast
    rw [Tree.delay_some, Nat.add_comm 1] at h
    exact h
  | case10 _ _ start body close closes rest _ hcell n s₁ hbody hkind hcloseCell ihb ihr =>
    obtain ⟨-, hbodyAt, hclose, hrest⟩ := hat.block
    obtain ⟨hstop, hback, hlinkedb, hlinkedr⟩ := hlinked
    have hend := loopEnd_of_ne_guard closes hkind
    have hfollows := ihb hbodyAt hlinkedb
    rw [hbody] at hfollows
    have hzero (steps : Nat) : p.perform close ⟨s₁, steps, index + 1 + body.code.length⟩ =
        .ok ⟨s₁, steps, index + 1 + body.code.length + 1⟩ :=
      perform_loopEnd hend hcloseCell (closes.2 ▸ hback (Tree.opcode_of_ne_guard closes hkind)) _ _
    have hlast := Follows.dispatch hlimit hclose hzero (ihr hrest hlinkedr)
    have h := Follows.body hlimit hat hstop hcell hfollows (hlast.fewer (Nat.le_succ _))
    rw [Tree.delay_delay, Nat.add_comm 1] at h
    rwa [length_block]
  | case11 => exact Follows.never hlimit hat.head
  | case12 _ start body close closes rest _ hcell n s₁ hkind _ hcloseCell rounds hbody ihb ihr =>
    obtain ⟨-, hbodyAt, hclose, -⟩ := hat.block
    have hblock := hlinked
    obtain ⟨hstop, hback, hlinkedb, -⟩ := hblock
    have hend := loopEnd_of_ne_guard closes hkind
    have hfollows := ihb hbodyAt hlinkedb
    rw [hbody] at hfollows
    have hagain (steps : Nat) : p.perform close ⟨s₁, steps, index + 1 + body.code.length⟩ =
        .ok ⟨s₁, steps, index⟩ :=
      perform_loopEnd hend hcloseCell (closes.2 ▸ hback (Tree.opcode_of_ne_guard closes hkind)) _ _
    have hlast := Follows.dispatch hlimit hclose hagain (ihr hat hlinked)
    have h := Follows.body hlimit hat hstop hcell hfollows hlast
    rwa [Tree.delay_delay, Nat.add_comm 1] at h

end Program

/-! ## 5. Whole runs -/

namespace Tree

/-- How an evaluation can fail: the store refuses, or some instruction of
the tree moves to the left by a distance that has no opposite. -/
theorem failure_of_eval {w : Width} {rounds n : Nat} {t : Tree} {s : Store} {c : Crash}
    (h : eval w rounds t s = some (n, .error c)) :
    s.Refuses c ∨ c.failure = .overflow .negate ∧
      ∃ i ∈ t.code, i.opcode = .left ∧ ¬ Operand.InRange (-i.value) := by
  have hbody {rounds n : Nat} {t : Tree} {s s₁ : Store} (h : eval w rounds t s = some (n, .ok s₁)) :
      s.Changes w s₁ := (exec_of_eval h).changes s₁ rfl
  -- an instruction of a part is one of the whole
  have hpart {code code' : List Instruction} (hsub : code ⊆ code')
      (h : c.failure = .overflow .negate ∧
        ∃ i ∈ code, i.opcode = .left ∧ ¬ Operand.InRange (-i.value)) :
      c.failure = .overflow .negate ∧
        ∃ i ∈ code', i.opcode = .left ∧ ¬ Operand.InRange (-i.value) := by
    obtain ⟨hfailure, i, hmem, hi⟩ := h
    exact ⟨hfailure, i, hsub hmem, hi⟩
  have hstep (i : Instruction) (code : List Instruction) : code ⊆ i :: code :=
    List.subset_cons_self _ _
  have hin (start close : Instruction) (body rest : List Instruction) :
      body ⊆ start :: (body ++ close :: rest) := fun i hi => by simp [hi]
  have hbehind (start close : Instruction) (body rest : List Instruction) :
      rest ⊆ start :: (body ++ close :: rest) := fun i hi => by simp [hi]
  fun_induction eval w rounds t s generalizing n with
  | case1 => simp at h
  | case2 _ _ i _ _ _ heffect =>
    cases h
    rcases Instruction.failure_of_effect heffect with hrefuses | ⟨hfailure, hi⟩
    · exact .inl hrefuses
    · exact .inr ⟨hfailure, i, by simp, hi⟩
  | case3 _ _ _ _ _ _ heffect ih =>
    obtain ⟨k, hr, -⟩ := delay_eq_some_iff.1 h
    exact (ih hr).imp (.of_changes (Instruction.changes_of_effect heffect)) (hpart (hstep _ _))
  | case4 _ _ _ _ _ _ _ _ hopen =>
    cases h
    exact .inl (Store.refuses_of_cell hopen)
  | case5 _ _ _ _ _ _ _ _ ih =>
    obtain ⟨k, hr, -⟩ := delay_eq_some_iff.1 h
    exact (ih hr).imp_right (hpart (hbehind _ _ _ _))
  | case6 => cases h
  | case7 _ _ _ _ _ _ _ _ _ _ _ hb ih =>
    cases h
    exact (ih hb).imp_right (hpart (hin _ _ _ _))
  | case8 _ _ _ _ _ _ _ _ _ _ _ hb _ _ ihr =>
    obtain ⟨k, hr, -⟩ := delay_eq_some_iff.1 h
    exact (ihr hr).imp (.of_changes (hbody hb)) (hpart (hbehind _ _ _ _))
  | case9 _ _ _ _ _ _ _ _ _ _ _ hb _ _ hclose =>
    cases h
    exact .inl ((Store.refuses_of_cell hclose).of_changes (hbody hb))
  | case10 _ _ _ _ _ _ _ _ _ _ _ hb _ _ _ ihr =>
    obtain ⟨k, hr, -⟩ := delay_eq_some_iff.1 h
    exact (ihr hr).imp (.of_changes (hbody hb)) (hpart (hbehind _ _ _ _))
  | case11 => cases h
  | case12 _ _ _ _ _ _ _ _ _ _ _ _ _ _ hb _ ihr =>
    obtain ⟨k, hr, -⟩ := delay_eq_some_iff.1 h
    exact (ihr hr).imp_left (.of_changes (hbody hb))

/-- No evaluation blames the step counter. -/
theorem failure_ne_add_of_eval {w : Width} {rounds n : Nat} {t : Tree} {s : Store} {c : Crash}
    (h : eval w rounds t s = some (n, .error c)) : c.failure ≠ .overflow .add := by
  rcases failure_of_eval h with (⟨k, q, hf⟩ | ⟨⟨f, hf⟩, -⟩) | ⟨hf, -⟩ <;> simp [hf]

end Tree

namespace Machine

/-- How the run of a stream depends on what the evaluation of its tree
comes to in as many rounds as the counter has room. -/
theorem executeWithin_eq_eval {t : Tree} (hlabels : (Stream.labels t.code).Nodup) (m : Machine)
    (w : Width) (headroom rounds : Nat) :
    match t.eval w rounds m.toStore with
    | none => headroom ≤ rounds → CounterOverflow (m.executeWithin headroom t.code w none)
    | some (n, r) =>
      (headroom < n → CounterOverflow (m.executeWithin headroom t.code w none)) ∧
        (n ≤ headroom → m.executeWithin headroom t.code w none =
          match r with
          | .error c => .error c
          | .ok s => .ok (.completed, ⟨s, m.steps + n, t.code.length⟩)) := by
  obtain ⟨table, htable, hlinked⟩ := JumpTable.linked_ofStream hlabels
  let p : Program := { code := t.code.toArray, jumps := table, width := w, limit := none }
  have hexecute : m.executeWithin headroom t.code w none =
      p.resume headroom ⟨m.toStore, m.steps, 0⟩ := by
    simp [executeWithin, htable, p]
  have hend (s : Store) (room steps : Nat) :
      p.resume room ⟨s, steps, 0 + t.code.length⟩ =
        .ok (.completed, ⟨s, steps, t.code.length⟩) := by
    rw [Nat.zero_add]
    exact Program.resume_end (by simp [p]) room
  have hfollows := Program.follows_eval (p := p) rfl ⟨[], by simp [p]⟩ hlinked rounds m.toStore
    headroom m.steps
  rw [hexecute]
  cases hx : t.eval w rounds m.toStore with
  | none => simpa only [p, hx] using hfollows
  | some x =>
    obtain ⟨n, r⟩ := x
    simp only [show p.width = w from rfl, hx] at hfollows
    refine ⟨hfollows.1, fun hle => ?_⟩
    rw [hfollows.2 hle]
    cases r with
    | error c => rfl
    | ok s => exact hend s _ _

variable {t : Tree} {m : Machine} {w : Width}

theorem completes_iff_eval (hlabels : (Stream.labels t.code).Nodup) {m' : Machine} :
    m.Completes t.code w m' ↔ ∃ rounds n s, t.eval w rounds m.toStore = some (n, .ok s) ∧
      (⟨s, m.steps + n, t.code.length⟩ : Machine) = m' := by
  constructor
  · rintro ⟨headroom, h⟩
    have hrun := executeWithin_eq_eval hlabels m w headroom headroom
    rw [h] at hrun
    cases hx : t.eval w headroom m.toStore with
    | none =>
      rw [hx] at hrun
      exact absurd (hrun (Nat.le_refl _)) (not_counterOverflow_ok _)
    | some x =>
      obtain ⟨n, r⟩ := x
      rw [hx] at hrun
      have hle : n ≤ headroom :=
        Nat.le_of_not_lt fun hlt => not_counterOverflow_ok _ (hrun.1 hlt)
      cases r with
      | error c => exact absurd (hrun.2 hle) (by simp)
      | ok s => exact ⟨headroom, n, s, hx, by simpa using (hrun.2 hle).symm⟩
  · rintro ⟨rounds, n, s, hx, rfl⟩
    have hrun := executeWithin_eq_eval hlabels m w n rounds
    rw [hx] at hrun
    exact ⟨n, hrun.2 (Nat.le_refl _)⟩

theorem fails_iff_eval (hlabels : (Stream.labels t.code).Nodup) {c : Crash} :
    m.Fails t.code w c ↔ ∃ rounds n, t.eval w rounds m.toStore = some (n, .error c) := by
  constructor
  · rintro ⟨hc, headroom, h⟩
    have hrun := executeWithin_eq_eval hlabels m w headroom headroom
    rw [h] at hrun
    cases hx : t.eval w headroom m.toStore with
    | none =>
      rw [hx] at hrun
      exact absurd (hrun (Nat.le_refl _)) (not_counterOverflow_error hc)
    | some x =>
      obtain ⟨n, r⟩ := x
      rw [hx] at hrun
      have hle : n ≤ headroom :=
        Nat.le_of_not_lt fun hlt => not_counterOverflow_error hc (hrun.1 hlt)
      cases r with
      | error c' =>
        have hcrash := hrun.2 hle
        simp only [Except.error.injEq] at hcrash
        exact ⟨headroom, n, hcrash ▸ hx⟩
      | ok s => exact absurd (hrun.2 hle) (by simp)
  · rintro ⟨rounds, n, hx⟩
    have hrun := executeWithin_eq_eval hlabels m w n rounds
    rw [hx] at hrun
    exact ⟨Tree.failure_ne_add_of_eval hx, n, hrun.2 (Nat.le_refl _)⟩

theorem runsForever_iff_eval (hlabels : (Stream.labels t.code).Nodup) :
    m.RunsForever t.code w ↔ ∀ rounds, t.eval w rounds m.toStore = none := by
  constructor
  · intro h rounds
    cases hx : t.eval w rounds m.toStore with
    | none => rfl
    | some x =>
      obtain ⟨n, r⟩ := x
      have hrun := executeWithin_eq_eval hlabels m w n rounds
      rw [hx] at hrun
      have hforever := h n
      rw [hrun.2 (Nat.le_refl _)] at hforever
      cases r with
      | error c =>
        exact absurd hforever (not_counterOverflow_error (Tree.failure_ne_add_of_eval hx))
      | ok s => exact absurd hforever (not_counterOverflow_ok _)
  · intro h headroom
    have hrun := executeWithin_eq_eval hlabels m w headroom headroom
    rw [h] at hrun
    exact hrun (Nat.le_refl _)

/-- A stream completes exactly if its tree is done. -/
theorem completes_iff_exec (hlabels : (Stream.labels t.code).Nodup) {s : Store} :
    (∃ m', m.Completes t.code w m' ∧ m'.toStore = s) ↔ t.Exec w m.toStore (.done s) := by
  simp only [completes_iff_eval hlabels, Tree.exec_iff_eval, Ending.of_eq_done_iff]
  constructor
  · rintro ⟨m', ⟨rounds, n, s', h, rfl⟩, rfl⟩
    exact ⟨rounds, n, .ok s', h, rfl⟩
  · rintro ⟨rounds, n, r, h, rfl⟩
    exact ⟨_, ⟨rounds, n, s, h, rfl⟩, rfl⟩

/-- A stream runs off the tape exactly if its tree does. -/
theorem fails_iff_exec (hlabels : (Stream.labels t.code).Nodup) {index : Int} {sink : Sink} :
    (∃ position, m.Fails t.code w ⟨.outOfBounds index position, sink⟩) ↔
      t.Exec w m.toStore (.offTape index sink) := by
  simp only [fails_iff_eval hlabels, Tree.exec_iff_eval]
  constructor
  · rintro ⟨position, rounds, n, h⟩
    exact ⟨rounds, n, _, h, rfl⟩
  · rintro ⟨rounds, n, r, h, hr⟩
    cases r with
    | ok s => cases hr
    | error c =>
      obtain ⟨failure, sink'⟩ := c
      cases failure with
      | outOfBounds index' position =>
        cases hr
        exact ⟨position, rounds, n, h⟩
      | output => cases hr
      | overflow => cases hr

end Machine

/-! ## 6. The structured meaning of a stream -/

namespace Stream

/-- **The flat machine implements the structured meaning of a well-formed
stream.** The stream can be read as a tree, and its run completes with a
store exactly if the tree is done with that store, and leaves the tape at
an index after some output exactly if the tree does. Both hold of a step
counter that has room enough, and of the 64-bit counter where this does
not overflow. -/
theorem execution_iff_structured {code : List Instruction} (h : WellFormed code) :
    (∃ t : Tree, t.code = code) ∧
      ∀ t : Tree, t.code = code → ∀ (w : Width) (m : Machine),
        ((∀ s, (∃ m', m.Completes code w m' ∧ m'.toStore = s) ↔ t.Exec w m.toStore (.done s)) ∧
          ∀ index sink,
            (∃ position, m.Fails code w ⟨.outOfBounds index position, sink⟩) ↔
              t.Exec w m.toStore (.offTape index sink)) ∧
        (¬ CounterOverflow (m.execute code w none) →
          (∀ s, (∃ m', m.execute code w none = .ok (.completed, m') ∧ m'.toStore = s) ↔
            t.Exec w m.toStore (.done s)) ∧
          ∀ index sink,
            (∃ position, m.execute code w none = .error ⟨.outOfBounds index position, sink⟩) ↔
              t.Exec w m.toStore (.offTape index sink)) := by
  refine ⟨h.exists_tree, ?_⟩
  rintro t rfl w m
  have hdone (s : Store) := Machine.completes_iff_exec (m := m) (w := w) h.labels_nodup (s := s)
  have hoff (index : Int) (sink : Sink) :
      (∃ position, m.Fails t.code w ⟨.outOfBounds index position, sink⟩) ↔
        t.Exec w m.toStore (.offTape index sink) := Machine.fails_iff_exec h.labels_nodup
  refine ⟨⟨hdone, hoff⟩, fun hroom => ⟨fun s => ?_, fun index sink => ?_⟩⟩
  · simpa only [Machine.completes_iff_execute hroom] using hdone s
  · simpa only [Machine.fails_iff_execute hroom] using hoff index sink

/-- A loop around a guarded block, with labels out of order. From the cell it
goes around twice, and enters the block once; from beside the tape it gets
nowhere. -/
theorem execution_iff_structured_nested :
    let code : List Instruction := [⟨.loopStart, 7, 0, none⟩, ⟨.sub, 1, 0, none⟩,
      ⟨.guard, -2, 0, none⟩, ⟨.write, 1, 0, none⟩, ⟨.label, -2, 0, none⟩, ⟨.loopEnd, 7, 0, none⟩]
    let inside : Machine := { tape := #[2], pointer := 0 }
    let beside : Machine := { tape := #[2], pointer := 1 }
    let final : Store := { tape := #[0], pointer := 0, sink := { written := #[1] } }
    WellFormed code ∧ (∃ m', inside.Completes code .bits8 m' ∧ m'.toStore = final) ∧
      (∃ position, beside.Fails code .bits8 ⟨.outOfBounds 1 position, {}⟩) ∧
      ∃ t : Tree, t.code = code ∧ t.Exec .bits8 inside.toStore (.done final) ∧
        t.Exec .bits8 beside.toStore (.offTape 1 {}) := by
  intro code inside beside final
  have hwf : WellFormed code := by decide
  let body : Tree := .step ⟨.sub, 1, 0, none⟩ (by decide)
    (.block ⟨.guard, -2, 0, none⟩ (.step ⟨.write, 1, 0, none⟩ (by decide) .done)
      ⟨.label, -2, 0, none⟩ (by decide) .done)
  let t : Tree := .block ⟨.loopStart, 7, 0, none⟩ body ⟨.loopEnd, 7, 0, none⟩ (by decide) .done
  have hdone : t.Exec .bits8 inside.toStore (.done final) :=
    Tree.exec_iff_eval.2 ⟨2, 11, .ok final, by cbv, rfl⟩
  have hoff : t.Exec .bits8 beside.toStore (.offTape 1 {}) :=
    Tree.exec_iff_eval.2 ⟨1, 1, .error ⟨.outOfBounds 1 none, {}⟩, by cbv, rfl⟩
  obtain ⟨-, hall⟩ := execution_iff_structured hwf
  exact ⟨hwf, ((hall t rfl .bits8 inside).1.1 final).2 hdone,
    ((hall t rfl .bits8 beside).1.2 1 {}).2 hoff, t, rfl, hdone, hoff⟩

end Stream

end TapeCompiler
