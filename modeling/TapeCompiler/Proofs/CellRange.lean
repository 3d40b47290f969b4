/-
TapeCompiler.Proofs.CellRange — cells stay in range.

A cell is a natural number of any size, and nothing but the instructions
themselves keeps it below the number of values that the width allows. All
that reads a cell relies on this: a zero test, a division and the byte that
is written out look at the number as it is.

The argument goes through the elementary changes of a store
(`Store.Fits.change`), so it is about no instruction in particular. A run
adds to it that a jump changes no cell (`Program.fits_of_perform`).

`Program.Reaches` are the states that a run goes through, whether or not it
comes to an end; what it returns is one of them
(`Program.reaches_of_resume`). `Machine.cells_stay_in_range` is the main
result.
-/
import TapeCompiler.Proofs.ControlFlow

namespace TapeCompiler

/-! ## 1. Stores -/

namespace Store

/-- All cells fit the width, and the tape has this many. -/
structure Fits (w : Width) (size : Nat) (s : Store) : Prop where
  cells : ∀ value ∈ s.tape, value ≤ w.mask
  size : s.tape.size = size

variable {w : Width} {size : Nat} {s s' : Store}

/-- No elementary change makes the tape longer or shorter. -/
theorem Change.size_tape (h : Change w s s') : s'.tape.size = s.tape.size := by
  cases h with
  | cell index value fits => exact Array.size_setIfInBounds
  | _ => rfl

theorem Fits.change (hs : s.Fits w size) (h : Change w s s') : s'.Fits w size :=
  ⟨h.cells hs.cells, h.size_tape.trans hs.size⟩

theorem Fits.changes (hs : s.Fits w size) (h : Changes w s s') : s'.Fits w size := by
  induction h with
  | refl => exact hs
  | tail _ hc ih => exact ih.change hc

/-- Every instruction that is carried out leaves cells that fit. -/
theorem Fits.effect {i : Instruction} (hs : s.Fits w size) (h : i.effect w s = .ok s') :
    s'.Fits w size :=
  hs.changes (i.changes_of_effect h)

end Store

/-! ## 2. Runs -/

namespace Program

variable {p : Program} {m m' : Machine} {size : Nat}

/-- A step of a run keeps what is known of the tape: a jump changes no cell,
and a remark neither. -/
theorem fits_of_perform {i : Instruction} (hm : m.Fits p.width size)
    (h : p.perform i m = .ok m') : m'.Fits p.width size := by
  obtain ⟨-, heffect | ⟨message, hstore⟩⟩ := perform_cases h
  · exact hm.effect heffect
  · rw [hstore]
    exact ⟨hm.cells, hm.size⟩

/-- The states that a run goes through: the one it starts from, and the one
behind each instruction that is carried out. -/
inductive Reaches (p : Program) (m : Machine) : Machine → Prop where
  | start : Reaches p m m
  | step {m₁ m₂ : Machine} {i : Instruction} (before : Reaches p m m₁)
      (next : p.code[m₁.counter]? = some i) (goesOn : p.exhausted m₁ = false)
      (done : p.perform i { m₁ with steps := m₁.steps + 1 } = .ok m₂) : Reaches p m m₂

/-- **What holds of a whole run.** -/
theorem Reaches.fits (h : p.Reaches m m') (hm : m.Fits p.width size) : m'.Fits p.width size := by
  induction h with
  | start => exact hm
  | @step m₁ m₂ i before next goesOn done ih =>
    -- that the step is counted does not show in the store
    have hcounted : Store.Fits p.width size { m₁ with steps := m₁.steps + 1 }.toStore := ih
    exact fits_of_perform hcounted done

/-- What a run returns is a state that it went through. -/
theorem reaches_of_resume {headroom : Nat} {first : Machine} {outcome : Outcome}
    (hfirst : p.Reaches first m) (h : p.resume headroom m = .ok (outcome, m')) :
    p.Reaches first m' := by
  fun_induction resume p headroom m with
  | case1 headroom m finished =>
    cases h
    exact hfirst
  | case2 headroom m i next reached =>
    cases h
    exact hfirst
  | case3 => cases h
  | case4 => cases h
  | case5 m i next before headroom m₁ done ih =>
    exact ih (.step hfirst next (by simpa using before) done) h

end Program

/-! ## 3. Whole streams -/

namespace Machine

variable {m : Machine} {code : List Instruction} {w : Width} {limit : Option Nat}

/-- The run of a stream comes through the state `m'`. -/
def Visits (m : Machine) (code : List Instruction) (w : Width) (limit : Option Nat)
    (m' : Machine) : Prop :=
  Program.Reaches { Stream.program code w with limit } (m.entering code) m'

theorem visits_of_execute {outcome : Outcome} {m' : Machine}
    (h : m.execute code w limit = .ok (outcome, m')) : m.Visits code w limit m' :=
  Program.reaches_of_resume .start h

/-- **Cells stay in range, and the tape keeps its size.** The stream may hold
anything, its blocks need not be nested, and nothing is asked of operands,
input, output, pointer or step limit: if all cells fit the width at first,
then so they do in every state that the run goes through and in the one it
returns. -/
theorem cells_stay_in_range (hcells : ∀ value ∈ m.tape, value ≤ w.mask) :
    (∀ m', m.Visits code w limit m' →
      (∀ value ∈ m'.tape, value ≤ w.mask) ∧ m'.tape.size = m.tape.size) ∧
    ∀ outcome m', m.execute code w limit = .ok (outcome, m') →
      m.Visits code w limit m' ∧
        (∀ value ∈ m'.tape, value ≤ w.mask) ∧ m'.tape.size = m.tape.size := by
  have hvisited : ∀ m', m.Visits code w limit m' →
      (∀ value ∈ m'.tape, value ≤ w.mask) ∧ m'.tape.size = m.tape.size := by
    intro m' hvisits
    have hentering : (m.entering code).Fits w m.tape.size := ⟨hcells, rfl⟩
    have hfits : m'.Fits w m.tape.size := Program.Reaches.fits hvisits hentering
    exact ⟨hfits.cells, hfits.size⟩
  refine ⟨hvisited, fun outcome m' hrun => ?_⟩
  have hvisits := visits_of_execute hrun
  exact ⟨hvisits, hvisited m' hvisits⟩

/-- A run that a stray bracket sends back to the beginning, until the limit
is reached: counting wraps, a product wraps, and a byte is read. -/
theorem cells_stay_in_range_wrapping :
    let m : Machine := { tape := #[255, 3], input := [.byte 200] }
    let code : List Instruction := [⟨.add, 1, 0, none⟩, ⟨.right, 1, 0, none⟩, ⟨.mul, 200, -1, none⟩,
      ⟨.read, 1, 0, none⟩, ⟨.loopEnd, 9, 0, none⟩]
    (∀ value ∈ m.tape, value ≤ Width.bits8.mask) ∧
      ∃ m', m.execute code .bits8 (some 7) = .ok (.outOfSteps, m') ∧ m'.tape = #[88, 201] ∧
        m.Visits code .bits8 (some 7) m' ∧ (∀ value ∈ m'.tape, value ≤ Width.bits8.mask) ∧
        m'.tape.size = m.tape.size := by
  intro m code
  have hcells : ∀ value ∈ m.tape, value ≤ Width.bits8.mask := by decide
  have hrun : m.execute code .bits8 (some 7) = .ok (.outOfSteps,
      { tape := #[88, 201], pointer := 2, warnings := #[⟨"Unmatched jump label", none⟩],
        steps := 7, counter := 2 }) := by
    cbv
  exact ⟨hcells, _, hrun, rfl, (cells_stay_in_range hcells).2 _ _ hrun⟩

end Machine

end TapeCompiler
