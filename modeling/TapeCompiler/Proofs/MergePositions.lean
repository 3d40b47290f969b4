/-
TapeCompiler.Proofs.MergePositions — merging does not look at positions.

A pass compares opcodes and adds up values. A function that changes offsets
and positions only can therefore be applied before a pass or after it, and
before merging to the end or after it (`Stream.mergeAll_map`), also where an
operand or the tally of the passes overflows. So what is shown of a stream
without positions holds of the stream of its text.
-/
import TapeCompiler.Merge
import TapeCompiler.Proofs.SymbolText

namespace TapeCompiler

/-! ## 1. Functions that spare counts -/

/-- The function changes the offset and the position of an instruction at
most, and looks at nothing else. -/
def Instruction.SparesCounts (f : Instruction → Instruction) : Prop :=
  ∀ (i : Instruction) (opcode : Opcode) (value : Int),
    f { i with opcode, value } = { f i with opcode, value }

/-- Taking the position away is such a function. -/
theorem Instruction.sparesCounts_unplaced : SparesCounts unplaced := by
  intro i opcode value
  rfl

section

variable {f : Instruction → Instruction}

theorem Instruction.SparesCounts.opcode_eq (hf : SparesCounts f) (i : Instruction) :
    (f i).opcode = i.opcode := by
  have h := hf i i.opcode i.value
  rw [h]

theorem Instruction.SparesCounts.value_eq (hf : SparesCounts f) (i : Instruction) :
    (f i).value = i.value := by
  have h := hf i i.opcode i.value
  rw [h]

variable (hf : Instruction.SparesCounts f)
include hf

/-- What a run amounts to keeps the position of its first instruction, so the
function may come before or after. -/
theorem Run.total_map (first : Instruction) (count : Int) :
    Run.total ⟨f first, count⟩ = (Run.total ⟨first, count⟩).map (Option.map f) := by
  have hvalue : f { first with value := count } = { f first with value := count } := by
    simpa [hf.opcode_eq] using hf first first.opcode count
  simp only [Run.total, hf.opcode_eq]
  split
  · simp [Except.map, hvalue, hf.opcode_eq]
  · rename_i op hop
    split
    · simp [Except.map, hvalue, hf.opcode_eq]
    split
    · cases hneg : Operand.neg count with
      | error e => rfl
      | ok value =>
        have hturn := hf first op value
        simp [bind, Except.bind, pure, Except.pure, Except.map, hturn]
    · rfl

/-! ## 2. Passes -/

namespace Merging

/-- The pass with the function applied to every instruction it has. -/
def map (f : Instruction → Instruction) (m : Merging) : Merging :=
  { output := m.output.map f, run := m.run.map (fun r => ⟨f r.first, r.count⟩) }

/-- Ending a run does not look at positions. -/
theorem flush_map (m : Merging) : (m.map f).flush = m.flush.map (Array.map f) := by
  obtain ⟨written, run⟩ := m
  cases run with
  | none => rfl
  | some r =>
    simp only [map, flush, Option.map_some, Run.total_map hf]
    cases r.total with
    | error e => rfl
    | ok i? => cases i? <;> simp [bind, Except.bind, pure, Except.pure, Except.map]

theorem start_map (output : Array Instruction) (i : Instruction) :
    start (output.map f) (f i) = (start output i).map f := by
  simp only [start, hf.opcode_eq, hf.value_eq]
  split <;> simp [map]

/-- Neither does taking in one more instruction. -/
theorem feed_map (m : Merging) (i : Instruction) :
    (m.map f).feed (f i) = (m.feed i).map (map f) := by
  obtain ⟨written, run⟩ := m
  cases run with
  | none => exact congrArg Except.ok (start_map hf written i)
  | some r =>
    have hflush (count : Int) := flush_map hf ⟨written, some ⟨r.first, count⟩⟩
    simp only [map, Option.map_some] at hflush
    simp only [map, feed, Option.map_some, hf.opcode_eq, hf.value_eq]
    split
    · cases Operand.add r.count i.value <;> rfl
    split
    · cases Operand.sub r.count i.value with
      | error e => rfl
      | ok count =>
        simp only [bind, Except.bind, hflush]
        cases flush ⟨written, some ⟨r.first, count⟩⟩ <;> rfl
    · rw [hflush]
      cases flush ⟨written, some r⟩ with
      | error e => rfl
      | ok output => exact congrArg Except.ok (start_map hf output i)

theorem foldlM_map (code : List Instruction) (m : Merging) :
    (code.map f).foldlM feed (m.map f) = (code.foldlM feed m).map (map f) := by
  induction code generalizing m with
  | nil => rfl
  | cons i code ih =>
    rw [List.map_cons, List.foldlM_cons, List.foldlM_cons, feed_map hf]
    cases m.feed i with
    | error e => rfl
    | ok m₁ => exact ih m₁

end Merging

namespace Stream

variable (code : List Instruction)

/-- **A pass does not look at offsets and positions.** -/
theorem merge_map : merge (code.map f) = (merge code).map (List.map f) := by
  have hfold := Merging.foldlM_map hf code {}
  have hempty : Merging.map f {} = {} := by simp [Merging.map]
  rw [hempty] at hfold
  simp only [merge, hfold]
  cases code.foldlM Merging.feed {} with
  | error e => rfl
  | ok m =>
    simp only [bind, Except.bind, Except.map, Merging.flush_map hf]
    cases m.flush <;> simp [pure, Except.pure]

/-- Nor does its repetition, which compares lengths. -/
theorem mergeOn_map (passes : Nat) :
    mergeOn passes (code.map f) = (mergeOn passes code).map (List.map f) := by
  fun_induction mergeOn passes code with
  | case1 passes code e hmerge => simp [mergeOn, merge_map hf, hmerge, Except.map]
  | case2 passes code next hmerge hshorter e htally =>
    rw [mergeOn, merge_map hf, hmerge]
    simp [Except.map, hshorter, htally]
  | case3 passes code next hmerge hshorter passes' htally ih =>
    rw [mergeOn, merge_map hf, hmerge]
    simp [Except.map, hshorter, htally, ih]
  | case4 passes code next hmerge hlength =>
    rw [mergeOn, merge_map hf, hmerge]
    simp [Except.map, hlength]

/-- Merging to the end does not look at offsets and positions. -/
theorem mergeAll_map : mergeAll (code.map f) = (mergeAll code).map (List.map f) := by
  simp only [mergeAll, merge_map hf]
  cases merge code with
  | error e => rfl
  | ok next => exact mergeOn_map hf next 1

end Stream

end

end TapeCompiler
