/-
TapeCompiler.Proofs.Similarity — when one tree may stand for another.

Two stores are alike when they differ in their remarks at most. An
instruction that works on a store works on every store alike, wherever
the instruction came from (`Instruction.effect_alike`): remarks are never
read, and a position only shows in a remark or in a failure.

A tree is similar to another one when it gives a store alike wherever the
first one gives a store, in no more steps, and finds no end wherever the
first one finds none. Nothing is said where the first one fails. Blocks
and steps respect similarity, so a rewriting is checked where it rewrites
(`Tree.Similar.step`, `Tree.Similar.block`).
-/
import TapeCompiler.Proofs.Structured

namespace TapeCompiler

/-! ## 1. Stores that are alike -/

namespace Store

/-- The stores differ in their remarks at most. -/
structure Alike (s s' : Store) : Prop where
  tape : s'.tape = s.tape
  pointer : s'.pointer = s.pointer
  input : s'.input = s.input
  sink : s'.sink = s.sink

namespace Alike

theorem refl (s : Store) : s.Alike s := ⟨rfl, rfl, rfl, rfl⟩

theorem trans {s₁ s₂ s₃ : Store} (h : s₁.Alike s₂) (h' : s₂.Alike s₃) : s₁.Alike s₃ :=
  ⟨h'.tape.trans h.tape, h'.pointer.trans h.pointer, h'.input.trans h.input,
    h'.sink.trans h.sink⟩

/-- Alike stores are one store with other remarks. What is shown of the one is
carried over to the other with this. -/
theorem eq {s s' : Store} (h : s.Alike s') : s' = { s with warnings := s'.warnings } := by
  obtain ⟨tape, pointer, warnings, input, sink⟩ := s
  obtain ⟨tape', pointer', warnings', input', sink'⟩ := s'
  obtain ⟨rfl, rfl, rfl, rfl⟩ := h
  rfl

/-- Remarks do not count. -/
theorem remarks (s : Store) (warnings : Array Warning) : s.Alike { s with warnings } :=
  ⟨rfl, rfl, rfl, rfl⟩

/-- A store alike to a regular one is regular. -/
theorem regular {w : Width} {s s' : Store} (h : s.Alike s') (hs : s.Regular w) :
    s'.Regular w := by
  rw [h.eq]
  exact ⟨hs.cells, hs.pointer, hs.sink⟩

/-- Cells that can be read have the same value in both stores, whoever reads
them. -/
theorem cell_eq_ok {s s' : Store} (h : s.Alike s') {offset : Int} {value : Nat}
    {position : Option Position} (position' : Option Position)
    (hcell : s.cell offset position = .ok value) : s'.cell offset position' = .ok value := by
  rw [h.eq]
  exact cell_eq_ok_iff.2 (cell_eq_ok_iff.1 hcell)

/-- A cell that can be set in the one store can be set in the other, and this
keeps them alike. -/
theorem setCell_eq_ok {s s' s₁ : Store} (h : s.Alike s') {offset : Int} {value : Nat}
    {position : Option Position} (position' : Option Position)
    (hset : s.setCell offset value position = .ok s₁) :
    ∃ s₁', s'.setCell offset value position' = .ok s₁' ∧ s₁.Alike s₁' := by
  obtain ⟨hon, rfl⟩ := setCell_eq_ok_iff.1 hset
  rw [h.eq]
  exact ⟨_, setCell_eq_ok_iff.2 ⟨hon, rfl⟩, rfl, rfl, rfl, rfl⟩

/-- What the one sink takes, the other one does. -/
theorem emit_eq_ok {s s' s₁ : Store} (h : s.Alike s') {value : Nat}
    (hemit : s.emit value = .ok s₁) : ∃ s₁', s'.emit value = .ok s₁' ∧ s₁.Alike s₁' := by
  obtain ⟨hroom, rfl⟩ := emit_eq_ok_iff.1 hemit
  rw [h.eq]
  exact ⟨_, emit_eq_ok_iff.2 ⟨hroom, rfl⟩, rfl, rfl, rfl, rfl⟩

theorem flush_eq_ok {s s' s₁ : Store} (h : s.Alike s') (hflush : s.flush = .ok s₁) :
    ∃ s₁', s'.flush = .ok s₁' ∧ s₁.Alike s₁' := by
  obtain ⟨hsink, rfl⟩ := flush_eq_ok_iff.1 hflush
  exact ⟨s', flush_eq_ok_iff.2 ⟨h.sink ▸ hsink, rfl⟩, h⟩

theorem move {s s' : Store} (h : s.Alike s') (distance : Int) :
    (s.move distance).Alike (s'.move distance) := by
  rw [h.eq]
  exact ⟨rfl, rfl, rfl, rfl⟩

end Alike

/-! ## 2. Instructions on stores that are alike -/

variable {position : Option Position} (position' : Option Position)

/-- Repeated writing keeps the stores alike byte by byte. -/
theorem writeTimes_alike {count : Nat} {s s' s₁ : Store} (h : s.Alike s')
    (hw : s.writeTimes position count = .ok s₁) :
    ∃ s₁', s'.writeTimes position' count = .ok s₁' ∧ s₁.Alike s₁' := by
  induction count generalizing s s' with
  | zero =>
    cases hw
    exact ⟨s', rfl, h⟩
  | succ count ih =>
    obtain ⟨value, hcell, hw⟩ := bind_eq_ok_iff.1 hw
    obtain ⟨s₂, hemit, hw⟩ := bind_eq_ok_iff.1 hw
    obtain ⟨s₂', hemit', h₂⟩ := h.emit_eq_ok hemit
    obtain ⟨s₁', hw', h₁⟩ := ih h₂ hw
    exact ⟨s₁', bind_eq_ok_iff.2 ⟨value, h.cell_eq_ok _ hcell,
      bind_eq_ok_iff.2 ⟨s₂', hemit', hw'⟩⟩, h₁⟩

/-- Alike stores read the same byte. If there is none they stay alike, because
a failure to read is no more than a remark. -/
theorem readOnce_alike {s s' s₁ : Store} (h : s.Alike s') (hr : s.readOnce position = .ok s₁) :
    ∃ s₁', s'.readOnce position' = .ok s₁' ∧ s₁.Alike s₁' := by
  rw [h.eq]
  unfold readOnce at hr ⊢
  cases hreceived : (Input.receive s.input).1 with
  | byte value =>
    simp only [hreceived] at hr ⊢
    exact (Alike.remarks _ s'.warnings).setCell_eq_ok _ hr
  | nothing =>
    simp only [hreceived] at hr ⊢
    cases hr
    exact ⟨_, rfl, rfl, rfl, rfl, rfl⟩
  | failed reason =>
    simp only [hreceived] at hr ⊢
    cases hr
    exact ⟨_, rfl, rfl, rfl, rfl, rfl⟩

theorem readTimes_alike {count : Nat} {s s' s₁ : Store} (h : s.Alike s')
    (hr : s.readTimes position count = .ok s₁) :
    ∃ s₁', s'.readTimes position' count = .ok s₁' ∧ s₁.Alike s₁' := by
  induction count generalizing s s' with
  | zero =>
    cases hr
    exact ⟨s', rfl, h⟩
  | succ count ih =>
    obtain ⟨s₂, honce, hr⟩ := bind_eq_ok_iff.1 hr
    obtain ⟨s₂', honce', h₂⟩ := readOnce_alike position' h honce
    obtain ⟨s₁', hr', h₁⟩ := ih h₂ hr
    exact ⟨s₁', bind_eq_ok_iff.2 ⟨s₂', honce', hr'⟩, h₁⟩

/-- A scan stops at the same cell, for it looks at nothing but cells. -/
theorem scan_alike {direction : Direction} {s s' s₁ : Store} (h : s.Alike s')
    (hs : s.scan direction position = .ok s₁) :
    ∃ s₁', s'.scan direction position' = .ok s₁' ∧ s₁.Alike s₁' := by
  fun_induction scan s direction position generalizing s' with
  | case1 => cases hs
  | case2 s hcell =>
    cases hs
    exact ⟨s', scan_of_zero (h.cell_eq_ok _ hcell) direction, h⟩
  | case3 s value hcell hne _ ih =>
    obtain ⟨value, rfl⟩ := Nat.exists_eq_succ_of_ne_zero hne
    rw [scan_of_succ (h.cell_eq_ok _ hcell)]
    exact ih (h.move _) hs

/-- Printing a run writes the same bytes from both stores. -/
theorem printRun_alike {s s' s₁ : Store} (h : s.Alike s') (hp : s.printRun position = .ok s₁) :
    ∃ s₁', s'.printRun position' = .ok s₁' ∧ s₁.Alike s₁' := by
  fun_induction printRun s position generalizing s' with
  | case1 => cases hp
  | case2 s hcell =>
    rw [printRun_of_zero (h.cell_eq_ok _ hcell)]
    exact h.flush_eq_ok hp
  | case3 => cases hp
  | case4 s value hcell hne written hemit _ ih =>
    obtain ⟨value, rfl⟩ := Nat.exists_eq_succ_of_ne_zero hne
    obtain ⟨written', hemit', hw⟩ := h.emit_eq_ok hemit
    rw [printRun_of_succ (h.cell_eq_ok _ hcell) hemit']
    exact ih (hw.move 1) hp

end Store

/-- **An instruction that works on a store works on every store alike**, and
so does its twin from another place of the source. -/
theorem Instruction.effect_alike {i j : Instruction} {w : Width} {s s' s₁ : Store}
    (hop : j.opcode = i.opcode) (hvalue : j.value = i.value) (hoffset : j.offset = i.offset)
    (h : s.Alike s') (he : i.effect w s = .ok s₁) :
    ∃ s₁', j.effect w s' = .ok s₁' ∧ s₁.Alike s₁' := by
  have htape : s'.tape = s.tape := h.tape
  have haddress (offset : Int) : s'.address offset = s.address offset := by
    simp [Store.address, h.pointer]
  have hdistance : j.displacement = i.displacement := by simp [displacement, hop, hvalue]
  unfold effect at he ⊢
  simp only [hop, hvalue, hoffset, hdistance, Store.update_eq_setCell, htape,
    haddress] at he ⊢
  split at he
  · exact h.setCell_eq_ok _ he
  · exact h.setCell_eq_ok _ he
  · split at he <;> cases he
    exact ⟨_, rfl, h.move _⟩
  · split at he <;> cases he
    exact ⟨_, rfl, h.move _⟩
  · obtain ⟨s₂, hw, hf⟩ := bind_eq_ok_iff.1 he
    obtain ⟨s₂', hw', h₂⟩ := Store.writeTimes_alike j.position h hw
    obtain ⟨s₁', hf', h₁⟩ := h₂.flush_eq_ok hf
    exact ⟨s₁', bind_eq_ok_iff.2 ⟨s₂', hw', hf'⟩, h₁⟩
  · exact Store.readTimes_alike _ h he
  · by_cases hclear : i.value = -1 ∧ i.offset = 0
    · rw [if_pos hclear] at he ⊢
      exact h.setCell_eq_ok _ he
    · rw [if_neg hclear] at he ⊢
      obtain ⟨source, hsource, he⟩ := bind_eq_ok_iff.1 he
      obtain ⟨s₁', he', h₁⟩ := h.setCell_eq_ok j.position he
      exact ⟨s₁', bind_eq_ok_iff.2 ⟨source, h.cell_eq_ok _ hsource, he'⟩, h₁⟩
  · by_cases hle : i.value ≤ 0
    · rw [if_pos hle] at he ⊢
      cases he
      exact ⟨_, rfl, h.tape, h.pointer, h.input, h.sink⟩
    · rw [if_neg hle] at he ⊢
      exact h.setCell_eq_ok _ he
  · exact h.setCell_eq_ok _ he
  · exact Store.scan_alike _ h he
  · exact Store.scan_alike _ h he
  · exact Store.printRun_alike _ h he
  all_goals
    cases he
    exact ⟨s', rfl, h⟩

/-! ## 3. Similar trees -/

namespace Tree

/-- The second evaluation does what the first one does, where that one does
not fail, and takes no more instructions. -/
def Agree : Option (Nat × Except Crash Store) → Option (Nat × Except Crash Store) → Prop
  | none, result => result = none
  | some (_, .error _), _ => True
  | some (n, .ok s), result => ∃ n' ≤ n, ∃ s', result = some (n', .ok s') ∧ s.Alike s'

/-- Agreement is passed on. Each time the steps may get fewer. -/
theorem Agree.trans {x y z : Option (Nat × Except Crash Store)} (h : Agree x y)
    (h' : Agree y z) : Agree x z := by
  match x, h with
  | none, h =>
    cases h
    exact h'
  | some (_, .error _), _ => trivial
  | some (n, .ok s), ⟨n', hle, s', hy, hs⟩ =>
    subst hy
    obtain ⟨n'', hle', s'', hz, hs'⟩ := h'
    exact ⟨n'', Nat.le_trans hle' hle, s'', hz, hs.trans hs'⟩

/-- Evaluations still agree with more steps in front, if the second one does
not get more of them than the first. -/
theorem Agree.delay {x y : Option (Nat × Except Crash Store)} (h : Agree x y) {n n' : Nat}
    (hle : n' ≤ n) : Agree (delay n x) (delay n' y) := by
  match x, h with
  | none, h =>
    cases h
    rfl
  | some (_, .error _), _ => trivial
  | some (k, .ok s), ⟨k', hk, s', hy, hs⟩ =>
    subst hy
    exact ⟨k' + n', Nat.add_le_add hk hle, s', rfl, hs⟩

/-- The second tree can stand for the first one: from stores that are alike
their evaluations agree, in any number of rounds. -/
def Similar (w : Width) (t t' : Tree) : Prop :=
  ∀ rounds (s s' : Store), s.Regular w → s.Alike s' →
    Agree (t.eval w rounds s) (t'.eval w rounds s')

namespace Similar

variable {w : Width}

/-- Rewritings may follow each other. -/
theorem trans {t₁ t₂ t₃ : Tree} (h : Similar w t₁ t₂) (h' : Similar w t₂ t₃) :
    Similar w t₁ t₃ :=
  fun rounds s s' hs ha =>
    (h rounds s s' hs ha).trans (h' rounds s' s' (ha.regular hs) (.refl s'))

/-- The same instruction before similar trees, or a twin of it. -/
theorem step_twin {i j : Instruction} {plain : i.Plain} {plain' : j.Plain} {rest rest' : Tree}
    (hop : j.opcode = i.opcode) (hvalue : j.value = i.value) (hoffset : j.offset = i.offset)
    (h : Similar w rest rest') : Similar w (step i plain rest) (step j plain' rest') := by
  intro rounds s s' hs ha
  cases he : i.effect w s with
  | error c =>
    rw [eval_step_error he]
    trivial
  | ok s₁ =>
    obtain ⟨s₁', he', ha'⟩ := Instruction.effect_alike hop hvalue hoffset ha he
    rw [eval_step_ok he, eval_step_ok he']
    exact (h rounds s₁ s₁' (hs.effect he) ha').delay (Nat.le_refl 1)

/-- The same instruction before similar trees. -/
theorem step {i : Instruction} {plain : i.Plain} {rest rest' : Tree}
    (h : Similar w rest rest') : Similar w (step i plain rest) (step i plain rest') :=
  step_twin rfl rfl rfl h

/-- A block around similar bodies and before similar trees. The induction is
on the rounds, for a loop comes back to itself with one round less. -/
theorem block {start close : Instruction} {closes : close.Closes start}
    {body body' rest rest' : Tree} (hb : Similar w body body') (hr : Similar w rest rest') :
    Similar w (block start body close closes rest) (block start body' close closes rest') := by
  intro rounds
  induction rounds using Nat.strongRecOn with
  | ind rounds ih =>
    intro s s' hs ha
    rw [eval, eval]
    cases hcell : s.cell 0 start.position with
    | error c => trivial
    | ok value =>
      rw [ha.cell_eq_ok start.position hcell]
      cases value with
      | zero => exact (hr rounds s s' hs ha).delay (Nat.le_refl 2)
      | succ value =>
        have hbody := hb rounds s s' hs ha
        cases hx : body.eval w rounds s with
        | none =>
          rw [hx] at hbody
          have hnone : body'.eval w rounds s' = none := hbody
          simp only [hnone]
          rfl
        | some ended =>
          obtain ⟨n, r⟩ := ended
          cases r with
          | error c => trivial
          | ok s₁ =>
            rw [hx] at hbody
            obtain ⟨n', hle, s₁', hx', ha₁⟩ := hbody
            have hs₁ : s₁.Regular w := (exec_of_eval hx).regular hs
            simp only [hx']
            split
            · exact (hr rounds s₁ s₁' hs₁ ha₁).delay (Nat.add_le_add_right hle 2)
            cases hclose : s₁.cell 0 close.position with
            | error c => trivial
            | ok value =>
              rw [ha₁.cell_eq_ok close.position hclose]
              cases value with
              | zero => exact (hr rounds s₁ s₁' hs₁ ha₁).delay (Nat.add_le_add_right hle 2)
              | succ value =>
                cases rounds with
                | zero => rfl
                | succ rounds =>
                  have hagain := ih rounds (Nat.lt_succ_self rounds) s₁ s₁' hs₁ ha₁
                  exact hagain.delay (Nat.add_le_add_right hle 2)

/-- A tree is similar to itself. That is not a matter of course, since the
stores are only alike: no instruction can tell them apart. -/
theorem refl (w : Width) (t : Tree) : Similar w t t := by
  induction t with
  | done =>
    intro rounds s s' _ ha
    rw [eval, eval]
    exact ⟨0, Nat.le_refl 0, s', rfl, ha⟩
  | step i plain rest ih => exact step ih
  | block start body close closes rest ihb ihr => exact block ihb ihr

end Similar

end Tree

end TapeCompiler
