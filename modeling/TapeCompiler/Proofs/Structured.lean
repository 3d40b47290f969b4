/-
TapeCompiler.Proofs.Structured — the meaning of a tree.

A loop block is `while cell ≠ 0 do body` and a guarded block is
`if cell ≠ 0 then body`. Both test the current cell, and a test off the
tape fails. The meaning is given twice.

* `Tree.Exec` is the usual big-step relation. It has no steps, no jumps
  and no program counter, and a failure is told by the index of the cell,
  not by the instruction to blame.
* `Tree.eval` computes the same within a number of rounds, that is of
  repetitions of loops. It also counts the instructions that the flat
  stream goes through and blames the same instruction, so it is the bridge
  from the machine to the relation.

`Tree.exec_iff_eval` says that the two agree.
-/
import TapeCompiler.Proofs.Blocks
import TapeCompiler.Proofs.StoreLaws

namespace TapeCompiler

/-! ## 1. Endings -/

/-- How the work on a tree ends. -/
inductive Ending where
  /-- All of it was done. -/
  | done (s : Store)
  /-- A cell beyond the tape was touched. -/
  | offTape (index : Int) (sink : Sink)
  /-- Output was refused, or a distance has no opposite. -/
  | broken (failure : RunFailure) (sink : Sink)

/-- The ending that a crash is. -/
def Crash.ending : Crash → Ending
  | ⟨.outOfBounds index _, sink⟩ => .offTape index sink
  | ⟨failure, sink⟩ => .broken failure sink

namespace Ending

/-- The ending of a run that gives a store or crashes. -/
def of : Except Crash Store → Ending
  | .ok s => .done s
  | .error c => c.ending

/-- The ending leaves no store to go on with. -/
def Failed : Ending → Prop
  | done _ => False
  | _ => True

@[simp] theorem of_ok (s : Store) : of (.ok s) = .done s := rfl

@[simp] theorem of_error (c : Crash) : of (.error c) = c.ending := rfl

/-- No crash leaves a store. -/
theorem failed_ending (c : Crash) : c.ending.Failed := by
  obtain ⟨failure, sink⟩ := c
  cases failure <;> trivial

theorem Failed.ne_done {e : Ending} (h : e.Failed) (s : Store) : e ≠ .done s := by
  rintro rfl
  exact h

/-- A run gives a store if its ending does. -/
theorem of_eq_done_iff {r : Except Crash Store} {s : Store} : of r = .done s ↔ r = .ok s := by
  constructor
  · intro h
    cases r with
    | ok s' =>
      cases h
      rfl
    | error c => exact absurd h ((failed_ending c).ne_done s)
  · rintro rfl
    rfl

end Ending

/-! ## 2. The big-step relation -/

namespace Tree

/-- The work on a tree, from a store to its ending. -/
inductive Exec (w : Width) : Tree → Store → Ending → Prop where
  | done (s : Store) : Exec w done s (.done s)
  | step {i : Instruction} {plain : i.Plain} {rest : Tree} {s s₁ : Store} {e : Ending}
      (heffect : i.effect w s = .ok s₁) (hrest : Exec w rest s₁ e) :
      Exec w (step i plain rest) s e
  | stepFails {i : Instruction} {plain : i.Plain} {rest : Tree} {s : Store} {c : Crash}
      (heffect : i.effect w s = .error c) : Exec w (step i plain rest) s c.ending
  | testFails {start close : Instruction} {body rest : Tree} {closes : close.Closes start}
      {s : Store} {c : Crash} (hcell : s.cell 0 start.position = .error c) :
      Exec w (block start body close closes rest) s c.ending
  | skip {start close : Instruction} {body rest : Tree} {closes : close.Closes start}
      {s : Store} {e : Ending} (hcell : s.cell 0 start.position = .ok 0)
      (hrest : Exec w rest s e) : Exec w (block start body close closes rest) s e
  | bodyFails {start close : Instruction} {body rest : Tree} {closes : close.Closes start}
      {s : Store} {value : Nat} {e : Ending}
      (hcell : s.cell 0 start.position = .ok (value + 1)) (hbody : Exec w body s e)
      (hfailed : e.Failed) : Exec w (block start body close closes rest) s e
  | loop {start close : Instruction} {body rest : Tree} {closes : close.Closes start}
      {s s₁ : Store} {value : Nat} {e : Ending} (hkind : start.opcode = .loopStart)
      (hcell : s.cell 0 start.position = .ok (value + 1)) (hbody : Exec w body s (.done s₁))
      (hagain : Exec w (block start body close closes rest) s₁ e) :
      Exec w (block start body close closes rest) s e
  | guard {start close : Instruction} {body rest : Tree} {closes : close.Closes start}
      {s s₁ : Store} {value : Nat} {e : Ending} (hkind : start.opcode = .guard)
      (hcell : s.cell 0 start.position = .ok (value + 1)) (hbody : Exec w body s (.done s₁))
      (hrest : Exec w rest s₁ e) : Exec w (block start body close closes rest) s e

namespace Exec

/-- What is done to the store is made of elementary changes. -/
theorem changes {w : Width} {t : Tree} {s : Store} {e : Ending} (h : Exec w t s e) :
    ∀ s', e = .done s' → s.Changes w s' := by
  induction h with
  | done s =>
    rintro s' ⟨⟩
    exact .refl
  | step heffect _ ih => exact fun s' he => (Instruction.changes_of_effect heffect).trans (ih s' he)
  | stepFails => exact fun s' he => absurd he ((Ending.failed_ending _).ne_done s')
  | testFails => exact fun s' he => absurd he ((Ending.failed_ending _).ne_done s')
  | skip _ _ ih => exact ih
  | bodyFails _ _ hfailed => exact fun s' he => absurd he (hfailed.ne_done s')
  | loop _ _ _ _ ihb ihr => exact fun s' he => (ihb _ rfl).trans (ihr s' he)
  | guard _ _ _ _ ihb ihr => exact fun s' he => (ihb _ rfl).trans (ihr s' he)

/-- A regular store stays regular. -/
theorem regular {w : Width} {t : Tree} {s s' : Store} (h : Exec w t s (.done s'))
    (hs : s.Regular w) : s'.Regular w :=
  hs.changes (h.changes s' rfl)

end Exec

/-! ## 3. Evaluation in rounds -/

/-- The same result, `n` instructions later. -/
def delay (n : Nat) : Option (Nat × Except Crash Store) → Option (Nat × Except Crash Store)
  | none => none
  | some (k, r) => some (k + n, r)

/-- The work on a tree with at most `rounds` repetitions of loops: how many
instructions it takes and what comes of it. -/
def eval (w : Width) (rounds : Nat) (t : Tree) (s : Store) :
    Option (Nat × Except Crash Store) :=
  match t with
  | done => some (0, .ok s)
  | step i _ rest =>
    match i.effect w s with
    | .error c => some (1, .error c)
    | .ok s₁ => delay 1 (eval w rounds rest s₁)
  | block start body close closes rest =>
    match s.cell 0 start.position with
    | .error c => some (1, .error c)
    -- the closing bracket is gone through as well
    | .ok 0 => delay 2 (eval w rounds rest s)
    | .ok (_ + 1) =>
      match eval w rounds body s with
      | none => none
      | some (n, .error c) => some (n + 1, .error c)
      | some (n, .ok s₁) =>
        if start.opcode = .guard then delay (n + 2) (eval w rounds rest s₁)
        else
          match s₁.cell 0 close.position with
          | .error c => some (n + 2, .error c)
          | .ok 0 => delay (n + 2) (eval w rounds rest s₁)
          | .ok (_ + 1) =>
            match rounds with
            | 0 => none
            | rounds + 1 => delay (n + 2) (eval w rounds (block start body close closes rest) s₁)
termination_by (rounds, t)

@[simp] theorem delay_none (n : Nat) : delay n none = none := rfl

@[simp] theorem delay_some (n k : Nat) (r : Except Crash Store) :
    delay n (some (k, r)) = some (k + n, r) := rfl

@[simp] theorem delay_zero (x : Option (Nat × Except Crash Store)) : delay 0 x = x := by
  cases x <;> rfl

theorem delay_delay (m n : Nat) (x : Option (Nat × Except Crash Store)) :
    delay m (delay n x) = delay (n + m) x := by
  cases x with
  | none => rfl
  | some y => simp [delay, Nat.add_assoc]

/-- A delayed evaluation ends as it would have, that much later. -/
theorem delay_eq_some_iff {n k : Nat} {x : Option (Nat × Except Crash Store)}
    {r : Except Crash Store} : delay n x = some (k, r) ↔ ∃ k', x = some (k', r) ∧ k' + n = k := by
  cases x with
  | none => simp
  | some y =>
    obtain ⟨k', r'⟩ := y
    simp only [delay_some, Option.some.injEq, Prod.mk.injEq]
    constructor
    · rintro ⟨rfl, rfl⟩
      exact ⟨k', ⟨rfl, rfl⟩, rfl⟩
    · rintro ⟨k'', ⟨rfl, rfl⟩, rfl⟩
      exact ⟨rfl, rfl⟩

/-- An instruction that works takes one step, and the rest goes on from there. -/
theorem eval_step_ok {w : Width} {i : Instruction} {s s₁ : Store} (h : i.effect w s = .ok s₁)
    (rounds : Nat) (plain : i.Plain) (rest : Tree) :
    eval w rounds (step i plain rest) s = delay 1 (eval w rounds rest s₁) := by
  rw [eval]
  simp only [h]

theorem eval_step_error {w : Width} {i : Instruction} {s : Store} {c : Crash}
    (h : i.effect w s = .error c) (rounds : Nat) (plain : i.Plain) (rest : Tree) :
    eval w rounds (step i plain rest) s = some (1, .error c) := by
  rw [eval]
  simp only [h]

/-- Which instruction a test off the tape is blamed on makes no difference
to the ending. -/
theorem ending_of_cell {s : Store} {offset : Int} {position position' : Option Position}
    {c c' : Crash} (h : s.cell offset position = .error c)
    (h' : s.cell offset position' = .error c') : c.ending = c'.ending := by
  obtain ⟨-, rfl⟩ := Store.cell_eq_error_iff.1 h
  obtain ⟨-, rfl⟩ := Store.cell_eq_error_iff.1 h'
  rfl

/-- A position only shows in failures. -/
theorem cell_eq_ok_of_cell {s : Store} {offset : Int} {position : Option Position}
    (position' : Option Position) {value : Nat} (h : s.cell offset position = .ok value) :
    s.cell offset position' = .ok value :=
  Store.cell_eq_ok_iff.2 (Store.cell_eq_ok_iff.1 h)

/-! ## 4. The two agree -/

/-- There are no blocks but loops and guards. -/
theorem opcode_of_ne_guard {start close : Instruction} (closes : close.Closes start)
    (h : start.opcode ≠ .guard) : start.opcode = .loopStart := by
  rcases closes.kinds with ⟨hs, -⟩ | ⟨hs, -⟩
  · exact hs
  · exact absurd hs h

/-- What is evaluated is done. -/
theorem exec_of_eval {w : Width} {rounds k : Nat} {t : Tree} {s : Store}
    {r : Except Crash Store} (h : eval w rounds t s = some (k, r)) :
    Exec w t s (Ending.of r) := by
  fun_induction eval w rounds t s generalizing k r with
  | case1 =>
    cases h
    exact .done _
  | case2 _ _ _ _ _ _ heffect =>
    cases h
    exact .stepFails heffect
  | case3 _ _ _ _ _ _ heffect ih =>
    obtain ⟨k', hr, -⟩ := delay_eq_some_iff.1 h
    exact .step heffect (ih hr)
  | case4 _ _ _ _ _ _ _ _ hcell =>
    cases h
    exact .testFails hcell
  | case5 _ _ _ _ _ _ _ hcell ih =>
    obtain ⟨k', hr, -⟩ := delay_eq_some_iff.1 h
    exact .skip hcell (ih hr)
  | case6 => cases h
  | case7 _ _ _ _ _ _ _ _ hcell _ c hbody ih =>
    cases h
    exact .bodyFails hcell (ih hbody) (Ending.failed_ending c)
  | case8 _ _ _ _ _ _ _ _ hcell _ _ hbody hkind ihb ihr =>
    obtain ⟨k', hr, -⟩ := delay_eq_some_iff.1 h
    exact .guard hkind hcell (ihb hbody) (ihr hr)
  | case9 _ _ start _ _ closes _ _ hcell _ s₁ hbody hkind c hclose ih =>
    cases h
    -- the relation tests at the opening bracket, the machine at the closing one
    cases hopen : s₁.cell 0 start.position with
    | ok value => simp [cell_eq_ok_of_cell _ hopen] at hclose
    | error c' =>
      rw [Ending.of_error, ← ending_of_cell hopen hclose]
      exact .loop (opcode_of_ne_guard closes hkind) hcell (ih hbody) (.testFails hopen)
  | case10 _ _ start _ _ closes _ _ hcell _ _ hbody hkind hclose ihb ihr =>
    obtain ⟨k', hr, -⟩ := delay_eq_some_iff.1 h
    have hopen := cell_eq_ok_of_cell start.position hclose
    exact .loop (opcode_of_ne_guard closes hkind) hcell (ihb hbody) (.skip hopen (ihr hr))
  | case11 => cases h
  | case12 _ _ _ _ closes _ _ hcell _ _ hkind _ _ _ hbody ihb ihr =>
    obtain ⟨k', hr, -⟩ := delay_eq_some_iff.1 h
    exact .loop (opcode_of_ne_guard closes hkind) hcell (ihb hbody) (ihr hr)

/-- More rounds keep a result. -/
theorem eval_mono {w : Width} {rounds rounds' k : Nat} {t : Tree} {s : Store}
    {r : Except Crash Store} (h : eval w rounds t s = some (k, r)) (hle : rounds ≤ rounds') :
    eval w rounds' t s = some (k, r) := by
  fun_induction eval w rounds t s generalizing k r rounds' with
  | case1 =>
    rw [eval]
    exact h
  | case2 _ _ _ _ _ _ heffect => rwa [eval_step_error heffect]
  | case3 _ _ _ _ _ _ heffect ih =>
    obtain ⟨k', hr, rfl⟩ := delay_eq_some_iff.1 h
    rw [eval_step_ok heffect, ih hr hle, delay_some]
  | case4 _ _ _ _ _ _ _ _ hcell =>
    rw [eval]
    simpa only [hcell] using h
  | case5 _ _ _ _ _ _ _ hcell ih =>
    obtain ⟨k', hr, rfl⟩ := delay_eq_some_iff.1 h
    rw [eval]
    simp only [hcell, ih hr hle, delay_some]
  | case6 => cases h
  | case7 _ _ _ _ _ _ _ _ hcell _ _ hbody ih =>
    rw [eval]
    simpa only [hcell, ih hbody hle] using h
  | case8 _ _ _ _ _ _ _ _ hcell _ _ hbody hkind ihb ihr =>
    obtain ⟨k', hr, rfl⟩ := delay_eq_some_iff.1 h
    rw [eval]
    simp only [hcell, ihb hbody hle, hkind, if_true, ihr hr hle, delay_some]
  | case9 _ _ _ _ _ _ _ _ hcell _ _ hbody hkind _ hclose ih =>
    rw [eval]
    simpa only [hcell, ih hbody hle, hkind, if_false, hclose] using h
  | case10 _ _ _ _ _ _ _ _ hcell _ _ hbody hkind hclose ihb ihr =>
    obtain ⟨k', hr, rfl⟩ := delay_eq_some_iff.1 h
    rw [eval]
    simp only [hcell, ihb hbody hle, hkind, if_false, hclose, ihr hr hle, delay_some]
  | case11 => cases h
  | case12 _ _ _ _ _ _ _ hcell _ _ hkind _ hclose rounds hbody ihb ihr =>
    obtain ⟨k', hr, rfl⟩ := delay_eq_some_iff.1 h
    cases rounds' with
    | zero => simp at hle
    | succ rounds' =>
      rw [eval]
      simp only [hcell, ihb hbody hle, hkind, if_false, hclose,
        ihr hr (Nat.le_of_succ_le_succ hle), delay_some]

/-- What is done is evaluated, given enough rounds. -/
theorem eval_of_exec {w : Width} {t : Tree} {s : Store} {e : Ending} (h : Exec w t s e) :
    ∃ rounds k r, eval w rounds t s = some (k, r) ∧ Ending.of r = e := by
  induction h with
  | done s => exact ⟨0, 0, .ok s, by rw [eval], rfl⟩
  | step heffect _ ih =>
    obtain ⟨rounds, k, r, hr, rfl⟩ := ih
    exact ⟨rounds, k + 1, r, by rw [eval_step_ok heffect, hr, delay_some], rfl⟩
  | stepFails heffect => exact ⟨0, 1, .error _, eval_step_error heffect _ _ _, rfl⟩
  | testFails hcell =>
    exact ⟨0, 1, .error _, by rw [eval]; simp only [hcell], rfl⟩
  | skip hcell _ ih =>
    obtain ⟨rounds, k, r, hr, rfl⟩ := ih
    exact ⟨rounds, k + 2, r, by rw [eval]; simp only [hcell, hr, delay_some], rfl⟩
  | bodyFails hcell _ hfailed ih =>
    obtain ⟨rounds, k, r, hr, rfl⟩ := ih
    cases r with
    | ok s' => exact absurd rfl (hfailed.ne_done s')
    | error c => exact ⟨rounds, k + 1, .error c, by rw [eval]; simp only [hcell, hr], rfl⟩
  | @guard _ _ _ _ _ _ s₁ _ _ hkind hcell _ _ ihb ihr =>
    obtain ⟨m, j, rb, hb, hrb⟩ := ihb
    obtain ⟨n, k, r, hr, rfl⟩ := ihr
    obtain rfl := Ending.of_eq_done_iff.1 hrb
    have hb' := eval_mono hb (Nat.le_max_left m n)
    have hr' := eval_mono hr (Nat.le_max_right m n)
    exact ⟨max m n, k + (j + 2), r,
      by rw [eval]; simp only [hcell, hb', hkind, if_true, hr', delay_some], rfl⟩
  | @loop start close _ _ _ _ s₁ _ _ hkind hcell _ _ ihb ihr =>
    obtain ⟨m, j, rb, hb, hrb⟩ := ihb
    obtain ⟨n, k, r, hr, rfl⟩ := ihr
    obtain rfl := Ending.of_eq_done_iff.1 hrb
    have hguard : start.opcode ≠ .guard := by simp [hkind]
    cases hopen : s₁.cell 0 start.position with
    | error c =>
      rw [eval] at hr
      simp only [hopen, Option.some.injEq, Prod.mk.injEq] at hr
      obtain ⟨-, rfl⟩ := hr
      cases hclose : s₁.cell 0 close.position with
      | ok value => simp [cell_eq_ok_of_cell _ hclose] at hopen
      | error c' =>
        refine ⟨m, j + 2, .error c', ?_, ending_of_cell hclose hopen⟩
        rw [eval]
        simp only [hcell, hb, hguard, if_false, hclose]
    | ok value =>
      have hclose := cell_eq_ok_of_cell close.position hopen
      cases value with
      | zero =>
        rw [eval] at hr
        simp only [hopen] at hr
        obtain ⟨k', hrest, -⟩ := delay_eq_some_iff.1 hr
        have hb' := eval_mono hb (Nat.le_max_left m n)
        have hrest' := eval_mono hrest (Nat.le_max_right m n)
        refine ⟨max m n, k' + (j + 2), r, ?_, rfl⟩
        rw [eval]
        simp only [hcell, hb', hguard, if_false, hclose, hrest', delay_some]
      | succ value =>
        have hb' := eval_mono hb (Nat.le_succ_of_le (Nat.le_max_left m n))
        have hr' := eval_mono hr (Nat.le_max_right m n)
        refine ⟨max m n + 1, k + (j + 2), r, ?_, rfl⟩
        rw [eval]
        simp only [hcell, hb', hguard, if_false, hclose, hr', delay_some]

/-- **The two meanings agree**: a tree is done with an ending exactly if its
evaluation gives that ending after some number of rounds. -/
theorem exec_iff_eval {w : Width} {t : Tree} {s : Store} {e : Ending} :
    Exec w t s e ↔ ∃ rounds k r, eval w rounds t s = some (k, r) ∧ Ending.of r = e := by
  constructor
  · exact eval_of_exec
  · rintro ⟨rounds, k, r, h, rfl⟩
    exact exec_of_eval h

end Tree

end TapeCompiler
