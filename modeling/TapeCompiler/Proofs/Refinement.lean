/-
TapeCompiler.Proofs.Refinement — when a tree does what another one does.

A tree refines another one when it comes to every ending that the other
one comes to: the same store, or the same cell beyond the tape after the
same output. Steps and blocks respect refinement. A tree may be refined
under the condition that the current cell is zero, which is what a tree
finds behind a loop.

Two readings of a block help to check this. A loop is a number of whole
rounds and a last one (`Tree.exec_loop_iff`), and straight-line code is
one composed effect (`Tree.exec_prepend_iff`).
-/
import TapeCompiler.Proofs.Structured

namespace TapeCompiler

namespace Tree

/-! ## 1. Loops in rounds -/

/-- One whole round of a loop. -/
structure Round (w : Width) (body : Tree) (s s' : Store) : Prop where
  test : ∃ value, s.cell 0 none = .ok (value + 1)
  done : Exec w body s (.done s')

/-- Any number of whole rounds. -/
abbrev Rounds (w : Width) (body : Tree) : Store → Store → Prop :=
  Relation.ReflTransGen (Round w body)

/-- What ends a loop: the cell is zero, or is beyond the tape, or the body
fails. -/
inductive LastRound (w : Width) (body rest : Tree) (s : Store) : Ending → Prop where
  | zero {e : Ending} (test : s.cell 0 none = .ok 0) (hrest : Exec w rest s e) :
      LastRound w body rest s e
  | offTape (off : ¬ s.OnTape (s.address 0)) :
      LastRound w body rest s (.offTape (s.address 0) s.sink)
  | fails {e : Ending} {value : Nat} (test : s.cell 0 none = .ok (value + 1))
      (hbody : Exec w body s e) (failed : e.Failed) : LastRound w body rest s e

variable {w : Width} {start close : Instruction} {closes : close.Closes start}
  {body body' rest rest' : Tree} {s s₁ : Store} {e : Ending}

theorem Rounds.regular (h : Rounds w body s s₁) (hs : s.Regular w) : s₁.Regular w := by
  induction h with
  | refl => exact hs
  | tail _ hround ih => exact hround.done.regular ih

/-- A test that fails does so because the cell is beyond the tape. -/
theorem ending_of_cell_error {offset : Int} {position : Option Position} {c : Crash}
    (h : s.cell offset position = .error c) :
    ¬ s.OnTape (s.address offset) ∧ c.ending = .offTape (s.address offset) s.sink := by
  obtain ⟨hoff, rfl⟩ := Store.cell_eq_error_iff.1 h
  exact ⟨hoff, rfl⟩

theorem cell_eq_error_of_not_onTape {offset : Int} (position : Option Position)
    (h : ¬ s.OnTape (s.address offset)) :
    s.cell offset position = .error ⟨.outOfBounds (s.address offset) position, s.sink⟩ :=
  Store.cell_eq_error_iff.2 ⟨h, rfl⟩

theorem exec_of_lastRound (h : LastRound w body rest s e) :
    Exec w (block start body close closes rest) s e := by
  cases h with
  | zero test hrest => exact .skip (cell_eq_ok_of_cell _ test) hrest
  | offTape off => exact .testFails (cell_eq_error_of_not_onTape start.position off)
  | fails test hbody failed => exact .bodyFails (cell_eq_ok_of_cell _ test) hbody failed

/-- **A loop is a number of whole rounds and a last one.** -/
theorem exec_loop_iff (hkind : start.opcode = .loopStart) :
    Exec w (block start body close closes rest) s e ↔
      ∃ s₁, Rounds w body s s₁ ∧ LastRound w body rest s₁ e := by
  constructor
  · intro h
    generalize ht : block start body close closes rest = t at h
    induction h with
    | done => cases ht
    | step => cases ht
    | stepFails => cases ht
    | testFails hcell =>
      cases ht
      obtain ⟨hoff, hending⟩ := ending_of_cell_error hcell
      exact ⟨_, .refl, hending ▸ .offTape hoff⟩
    | skip hcell hrest =>
      cases ht
      exact ⟨_, .refl, .zero (cell_eq_ok_of_cell _ hcell) hrest⟩
    | bodyFails hcell hbody failed =>
      cases ht
      exact ⟨_, .refl, .fails (cell_eq_ok_of_cell _ hcell) hbody failed⟩
    | loop _ hcell hbody _ _ ih =>
      cases ht
      obtain ⟨s₁, hrounds, hlast⟩ := ih rfl
      exact ⟨s₁, .head ⟨⟨_, cell_eq_ok_of_cell _ hcell⟩, hbody⟩ hrounds, hlast⟩
    | guard hguard =>
      cases ht
      simp [hkind] at hguard
  · rintro ⟨s₁, hrounds, hlast⟩
    induction hrounds using Relation.ReflTransGen.head_induction_on with
    | refl => exact exec_of_lastRound hlast
    | head hround _ ih =>
      obtain ⟨value, test⟩ := hround.test
      exact .loop hkind (cell_eq_ok_of_cell _ test) hround.done ih

/-! ## 2. Straight-line code -/

end Tree

/-- What instructions in a row do to the store. -/
def Instruction.effects (w : Width) (steps : List Instruction) (s : Store) : Except Crash Store :=
  steps.foldlM (fun s i => i.effect w s) s

theorem Instruction.effects_cons (w : Width) (i : Instruction) (steps : List Instruction)
    (s : Store) :
    Instruction.effects w (i :: steps) s = (i.effect w s >>= Instruction.effects w steps) := rfl

namespace Tree

/-- Straight-line code does its effects one after the other. -/
theorem exec_prepend_iff {steps : List Instruction} (h : ∀ i ∈ steps, i.Plain) {w : Width}
    {t : Tree} {s : Store} {e : Ending} :
    Exec w (prepend steps h t) s e ↔
      (∃ s₁, Instruction.effects w steps s = .ok s₁ ∧ Exec w t s₁ e) ∨
        ∃ c, Instruction.effects w steps s = .error c ∧ c.ending = e := by
  induction steps generalizing s with
  | nil => simp [prepend, Instruction.effects, pure, Except.pure]
  | cons i steps ih =>
    rw [Instruction.effects_cons]
    cases he : i.effect w s with
    | error c =>
      simp only [bind, Except.bind, reduceCtorEq, false_and, exists_false, false_or]
      constructor
      · intro hexec
        cases hexec with
        | step heffect => simp [he] at heffect
        | stepFails heffect =>
          rw [he, Except.error.injEq] at heffect
          exact ⟨_, rfl, heffect ▸ rfl⟩
      · rintro ⟨c', hc, rfl⟩
        cases hc
        exact .stepFails he
    | ok s₁ =>
      simp only [bind, Except.bind]
      rw [← ih (fun j hj => h j (List.mem_cons_of_mem _ hj))]
      constructor
      · intro hexec
        cases hexec with
        | step heffect hrest =>
          rw [he, Except.ok.injEq] at heffect
          exact heffect ▸ hrest
        | stepFails heffect => simp [he] at heffect
      · exact fun hexec => .step he hexec

/-- A tree over straight-line code has no other shape. -/
theorem eq_prepend_of_code {t : Tree} {steps : List Instruction} (hcode : t.code = steps)
    (h : ∀ i ∈ steps, i.Plain) : t = prepend steps h done := by
  subst hcode
  induction t with
  | done => rfl
  | step i plain rest ih =>
    have hrest := ih fun j hj => h j (List.mem_cons_of_mem _ hj)
    exact congrArg (step i plain) hrest
  | block start body close closes rest _ _ =>
    have hplain := (h start (by simp)).1
    simp [closes.opens] at hplain

/-- The body of a block, if it is straight-line code. -/
theorem exec_straight_iff {t : Tree} {steps : List Instruction} (hcode : t.code = steps)
    (h : ∀ i ∈ steps, i.Plain) {w : Width} {s : Store} {e : Ending} :
    Exec w t s e ↔ Ending.of (Instruction.effects w steps s) = e := by
  rw [eq_prepend_of_code hcode h, exec_prepend_iff h]
  constructor
  · rintro (⟨s₁, hs₁, hdone⟩ | ⟨c, hc, rfl⟩)
    · cases hdone
      rw [hs₁]
      rfl
    · rw [hc]
      rfl
  · intro he
    cases hr : Instruction.effects w steps s with
    | error c =>
      rw [hr] at he
      exact .inr ⟨c, rfl, he⟩
    | ok s₁ =>
      rw [hr] at he
      exact .inl ⟨s₁, rfl, he ▸ .done s₁⟩

/-- The body of a block, if it is a single instruction. -/
theorem exec_single_iff {t : Tree} {i : Instruction} (hcode : t.code = [i]) (h : i.Plain)
    {w : Width} {s : Store} {e : Ending} : Exec w t s e ↔ Ending.of (i.effect w s) = e := by
  rw [exec_straight_iff hcode (by simpa using h), Instruction.effects_cons]
  cases i.effect w s <;> rfl

/-! ## 3. Refinement -/

/-- The second tree comes to every ending of the first one, from regular
stores and, if `zero` is set, from those whose current cell is zero. -/
def Refines (w : Width) (zero : Bool) (t t' : Tree) : Prop :=
  ∀ (s : Store) (e : Ending), s.Regular w → (zero = true → s.cell 0 none = .ok 0) →
    Exec w t s e → Exec w t' s e

namespace Refines

variable {w : Width} {zero : Bool}

theorem refl (t : Tree) : Refines w zero t t := fun _ _ _ _ h => h

theorem trans {t₁ t₂ t₃ : Tree} (h : Refines w zero t₁ t₂) (h' : Refines w zero t₂ t₃) :
    Refines w zero t₁ t₃ :=
  fun s e hs hz hexec => h' s e hs hz (h s e hs hz hexec)

theorem exec {t t' : Tree} (h : Refines w false t t') {s : Store} {e : Ending}
    (hs : s.Regular w) (hexec : Exec w t s e) : Exec w t' s e :=
  h s e hs (fun hfalse => by cases hfalse) hexec

theorem forget {t t' : Tree} (h : Refines w false t t') : Refines w zero t t' :=
  fun _ _ hs _ hexec => h.exec hs hexec

theorem rounds {body body' : Tree} (h : Refines w false body body') {s s₁ : Store}
    (hs : s.Regular w) (hrounds : Rounds w body s s₁) : Rounds w body' s s₁ := by
  induction hrounds with
  | refl => exact .refl
  | tail hrounds hround ih =>
    exact ih.tail ⟨hround.test, h.exec (Rounds.regular hrounds hs) hround.done⟩

/-- The same instruction before a tree and its refinement, which may use
that the instruction leaves a zero cell. -/
theorem step {i : Instruction} {plain : i.Plain} {rest rest' : Tree} {after : Bool}
    (hafter : after = true → ∀ s s₁ : Store, i.effect w s = .ok s₁ → s₁.cell 0 none = .ok 0)
    (h : Refines w after rest rest') : Refines w zero (step i plain rest) (step i plain rest') := by
  intro s e hs _ hexec
  cases hexec with
  | step heffect hrest =>
    exact .step heffect (h _ e (hs.effect heffect) (fun hz => hafter hz s _ heffect) hrest)
  | stepFails heffect => exact .stepFails heffect

variable {start close : Instruction} {closes : close.Closes start} {body body' rest rest' : Tree}

/-- A loop around a refined body, and before a tree that may use that the
loop leaves a zero cell. -/
theorem loop (hkind : start.opcode = .loopStart) (hbody : Refines w false body body')
    (hrest : Refines w true rest rest') :
    Refines w zero (block start body close closes rest)
      (block start body' close closes rest') := by
  intro s e hs _ hexec
  obtain ⟨s₁, hrounds, hlast⟩ := (exec_loop_iff hkind).1 hexec
  have hs₁ := Rounds.regular hrounds hs
  refine (exec_loop_iff hkind).2 ⟨s₁, hbody.rounds hs hrounds, ?_⟩
  cases hlast with
  | zero test h => exact .zero test (hrest s₁ e hs₁ (fun _ => test) h)
  | offTape off => exact .offTape off
  | fails test h failed => exact .fails test (hbody.exec hs₁ h) failed

theorem guard (hkind : start.opcode = .guard) (hbody : Refines w false body body')
    (hrest : Refines w false rest rest') :
    Refines w zero (block start body close closes rest)
      (block start body' close closes rest') := by
  intro s e hs _ hexec
  cases hexec with
  | testFails hcell => exact .testFails hcell
  | skip hcell h => exact .skip hcell (hrest.exec hs h)
  | bodyFails hcell h failed => exact .bodyFails hcell (hbody.exec hs h) failed
  | loop hloop => simp [hkind] at hloop
  | guard _ hcell h h' =>
    exact .guard hkind hcell (hbody.exec hs h) (hrest.exec (h.regular hs) h')

end Refines

end Tree

end TapeCompiler
