/-
TapeCompiler.Proofs.FlattenStep — what one step of the flattener does.

The last instruction that the flattener wrote may still be taken back, if a
clear would undo it (`Flattener.held`), and all before it is settled. The
routines of the flattener are put as equations of the whole state: what they
write, whether the cell is zero behind them, and what they count.

At a loop the flattener does nothing but drop it or carry its verdict out.
`Flattener.LoopStep` has one case for each of the five things this can be,
and `Flattener.loopStep_iff` says that it is exact. All that is shown of the
pass is shown for these cases: what it writes, what it counts, what it leaves
to do and what it means.
-/
import TapeCompiler.Proofs.Verdicts

namespace TapeCompiler

/-! ## 1. Counters -/

namespace LoopStats

instance : Add LoopStats where
  add a b :=
    { deadLoops := a.deadLoops + b.deadLoops
      clearLoops := a.clearLoops + b.clearLoops
      multiplyLoops := a.multiplyLoops + b.multiplyLoops
      divisions := a.divisions + b.divisions
      foldedStores := a.foldedStores + b.foldedStores
      removedStores := a.removedStores + b.removedStores
      scans := a.scans + b.scans
      prints := a.prints + b.prints }

theorem add_eq (a b : LoopStats) :
    a + b =
      { deadLoops := a.deadLoops + b.deadLoops
        clearLoops := a.clearLoops + b.clearLoops
        multiplyLoops := a.multiplyLoops + b.multiplyLoops
        divisions := a.divisions + b.divisions
        foldedStores := a.foldedStores + b.foldedStores
        removedStores := a.removedStores + b.removedStores
        scans := a.scans + b.scans
        prints := a.prints + b.prints } := rfl

theorem add_assoc (a b c : LoopStats) : a + b + c = a + (b + c) := by
  simp [add_eq, Nat.add_assoc]

@[simp] theorem add_empty (a : LoopStats) : a + {} = a := rfl

@[simp] theorem empty_add (a : LoopStats) : {} + a = a := by
  simp [add_eq]

/-- The counters of an instruction that stands for a whole loop. -/
def ofPattern (opcode : Opcode) : LoopStats :=
  if opcode = .printRun then { prints := 1 } else { scans := 1 }

end LoopStats

/-! ## 2. The work under way -/

namespace Flattener

variable {r r' : Flattener} {start : Instruction} {rest rest' : List Instruction}

/-- The instruction at the end of the output, if a clear would undo it. -/
def held (r : Flattener) : List Instruction :=
  match r.output with
  | i :: _ => if overwritten i then [i] else []
  | [] => []

/-- The output without what is held, latest instruction first. -/
def settled (r : Flattener) : List Instruction :=
  match r.output with
  | i :: older => if overwritten i then older else i :: older
  | [] => []

theorem settled_append_held (r : Flattener) :
    r.settled.reverse ++ r.held = r.output.reverse := by
  obtain ⟨output, zero, stats⟩ := r
  cases output with
  | nil => rfl
  | cons i older => by_cases hi : overwritten i = true <;> simp [settled, held, hi]

/-- The products of a loop, guarded by its counter. -/
def guarded (start : Instruction) (drop : Int) (terms : List Instruction)
    (close : Instruction) : List Instruction :=
  ⟨.guard, start.value, 0, start.position⟩
    :: (if drop = 1 then [] else [⟨.div, drop, 0, start.position⟩]) ++ terms
      ++ [⟨.label, close.value, 0, close.position⟩]

/-- A clear takes back what is held. -/
theorem clear_eq (r : Flattener) :
    r.clear = ⟨r.settled, r.cellIsZero,
      r.stats + { clearLoops := 1, removedStores := r.held.length }⟩ := by
  obtain ⟨output, zero, stats⟩ := r
  cases output with
  | nil => rfl
  | cons i older =>
    by_cases hi : overwritten i = true <;> simp [clear, settled, held, hi, LoopStats.add_eq]

theorem putPattern_eq (r : Flattener) (opcode : Opcode) (start : Instruction) :
    r.putPattern opcode start =
      ⟨⟨opcode, 0, 0, start.position⟩ :: r.output, true, r.stats + .ofPattern opcode⟩ := by
  unfold putPattern LoopStats.ofPattern
  split <;> rfl

theorem multiply_eq (r : Flattener) (start : Instruction) (drop : Int) (terms : List Instruction)
    (close : Instruction) :
    r.multiply start drop terms close =
      ⟨(guarded start drop terms close).reverse ++ r.output, r.cellIsZero,
        r.stats + { multiplyLoops := 1, divisions := if drop = 1 then 0 else 1 }⟩ := by
  unfold multiply guarded
  split <;> rfl

/-- How a flattened loop ends: with a clear, or with a store that takes in
the next instruction. -/
theorem finishCell_cases (h : r.finishCell start rest = .ok (r', rest')) :
    (r' = r.putClear start ∧ rest' = rest) ∨
      ∃ next, next.IsCellStep ∧ rest = next :: rest' ∧ r' = r.putStore next.amount next := by
  cases rest with
  | nil =>
    cases h
    exact .inl ⟨rfl, rfl⟩
  | cons next rest =>
    obtain ⟨value?, hvalue, h⟩ := bind_eq_ok_iff.1 h
    cases value? with
    | none =>
      cases h
      exact .inl ⟨rfl, rfl⟩
    | some value =>
      cases h
      unfold storedValue? at hvalue
      split at hvalue
      · rename_i hop
        cases hvalue
        exact .inr ⟨next, .inl hop, rfl, by simp [Instruction.amount, hop]⟩
      · rename_i hop
        obtain ⟨negated, hneg, hvalue⟩ := bind_eq_ok_iff.1 hvalue
        obtain ⟨-, rfl⟩ := Operand.checked_eq_ok_iff.1 hneg
        cases hvalue
        exact .inr ⟨next, .inr hop, rfl, by simp [Instruction.amount, hop]⟩
      · cases hvalue

/-! ## 3. Loops -/

/-- Does to a loop what the verdict on it says. -/
def carryOut (r : Flattener) (start : Instruction) (rest : List Instruction) (parts : LoopParts) :
    Verdict → Except FlattenError (Flattener × List Instruction)
  | .keep => .ok (r.keep start, rest)
  | .pattern opcode => .ok (r.putPattern opcode start, parts.rest)
  | .clear => FlattenError.ofOverflow (r.clear.finishCell start parts.rest)
  | .multiply drop terms =>
    FlattenError.ofOverflow ((r.multiply start drop terms parts.close).finishCell start parts.rest)

/-- A simple loop that is not over a single step is flattened as its verdict
has it. -/
theorem carryOut_ofCounter (r : Flattener) (start : Instruction) (rest : List Instruction)
    (parts : LoopParts) :
    (do match ← r.multiply? start parts with
        | some r => FlattenError.ofOverflow (r.finishCell start parts.rest)
        | none => return (r.keep start, rest)) =
      (Verdict.ofCounter parts.body >>= r.carryOut start rest parts) := by
  unfold multiply? Verdict.ofCounter
  cases counterDrop? 0 0 parts.body with
  | error cause => rfl
  | ok drop? =>
    cases drop? with
    | none => rfl
    | some drop =>
      by_cases hzero : drop = 0
      · simp [hzero, FlattenError.ofOverflow, bind, Except.bind, pure, Except.pure, carryOut]
      · cases products 0 [] parts.body <;>
          simp [hzero, FlattenError.ofOverflow, bind, Except.bind, pure, Except.pure, carryOut]

theorem carryOut_ofSimple (r : Flattener) (start : Instruction) (rest : List Instruction)
    (parts : LoopParts) :
    (do match ← r.flatten? start parts with
        | some r => FlattenError.ofOverflow (r.finishCell start parts.rest)
        | none => return (r.keep start, rest)) =
      (Verdict.ofSimple parts.body >>= r.carryOut start rest parts) := by
  have hcounter := r.carryOut_ofCounter start rest parts
  obtain ⟨body, close, behind⟩ := parts
  match body with
  | [] => exact hcounter
  | [single] =>
    by_cases hstep : single.opcode = .add ∨ single.opcode = .sub
    · simp [flatten?, Verdict.ofSimple, Instruction.IsCellStep, hstep, bind, Except.bind, carryOut]
    · simpa only [flatten?, Verdict.ofSimple, Instruction.IsCellStep, hstep, if_false]
        using hcounter
  | _ :: _ :: _ => exact hcounter

/-- **A loop is dead, or its verdict is carried out.** -/
theorem stepLoop_eq (target : Target) (r : Flattener) (start : Instruction)
    (rest : List Instruction) (parts : LoopParts) :
    r.stepLoop target start rest parts =
      if r.cellIsZero then .ok (r.dropDead, parts.rest)
      else Verdict.ofLoop target parts.body >>= r.carryOut start rest parts := by
  unfold stepLoop
  split
  · rfl
  split
  · rename_i hempty
    rw [List.isEmpty_iff.1 hempty]
    rfl
  unfold Verdict.ofLoop
  cases patternOpcode? target parts.body with
  | some opcode => rfl
  | none =>
    have hsimple := r.carryOut_ofSimple start rest parts
    unfold Verdict.ofBody
    cases isSimpleBody parts.body with
    | error cause => rfl
    | ok simple =>
      cases simple with
      | false => rfl
      | true => exact hsimple

/-- What the flattener does at the opening bracket of a loop. -/
inductive LoopStep (target : Target) (r : Flattener) (start : Instruction)
    (rest : List Instruction) (parts : LoopParts) : Flattener → List Instruction → Prop where
  | dead (zero : r.cellIsZero = true) : LoopStep target r start rest parts r.dropDead parts.rest
  | kept (live : r.cellIsZero = false)
      (verdict : Verdict.ofLoop target parts.body = .ok .keep) :
      LoopStep target r start rest parts (r.keep start) rest
  | pattern {opcode : Opcode} (live : r.cellIsZero = false)
      (verdict : Verdict.ofLoop target parts.body = .ok (.pattern opcode)) :
      LoopStep target r start rest parts (r.putPattern opcode start) parts.rest
  | clear {r' : Flattener} {rest' : List Instruction} (live : r.cellIsZero = false)
      (verdict : Verdict.ofLoop target parts.body = .ok .clear)
      (finish : r.clear.finishCell start parts.rest = .ok (r', rest')) :
      LoopStep target r start rest parts r' rest'
  | multiply {drop : Int} {terms : List Instruction} {r' : Flattener} {rest' : List Instruction}
      (live : r.cellIsZero = false)
      (verdict : Verdict.ofLoop target parts.body = .ok (.multiply drop terms))
      (finish : (r.multiply start drop terms parts.close).finishCell start parts.rest =
        .ok (r', rest')) :
      LoopStep target r start rest parts r' rest'

/-- **The cases are exact**: each can happen, and nothing else can. -/
theorem loopStep_iff {target : Target} {parts : LoopParts} :
    LoopStep target r start rest parts r' rest' ↔
      r.stepLoop target start rest parts = .ok (r', rest') := by
  rw [stepLoop_eq]
  constructor
  · intro h
    cases h with
    | dead zero => simp [zero]
    | kept live verdict => simp [live, verdict, bind, Except.bind, carryOut]
    | pattern live verdict => simp [live, verdict, bind, Except.bind, carryOut]
    | clear live verdict finish =>
      simp [live, verdict, bind, Except.bind, carryOut, finish, FlattenError.ofOverflow]
    | multiply live verdict finish =>
      simp [live, verdict, bind, Except.bind, carryOut, finish, FlattenError.ofOverflow]
  · intro h
    cases hzero : r.cellIsZero with
    | true =>
      rw [if_pos hzero] at h
      cases h
      exact .dead hzero
    | false =>
      simp only [hzero, Bool.false_eq_true, if_false] at h
      obtain ⟨v, hv, h⟩ := bind_eq_ok_iff.1 h
      cases v with
      | keep =>
        cases h
        exact .kept hzero hv
      | pattern opcode =>
        cases h
        exact .pattern hzero hv
      | clear => exact .clear hzero hv (FlattenError.ofOverflow_eq_ok_iff.1 h)
      | multiply drop terms => exact .multiply hzero hv (FlattenError.ofOverflow_eq_ok_iff.1 h)

/-- A loop that has an end is not flattened only if a number overflows. -/
theorem overflow_of_stepLoop {target : Target} {parts : LoopParts} {e : FlattenError}
    (h : r.stepLoop target start rest parts = .error e) : ∃ cause, e = .overflow cause := by
  rw [stepLoop_eq] at h
  split at h
  · cases h
  cases hv : Verdict.ofLoop target parts.body with
  | error fault =>
    rw [hv] at h
    cases h
    exact Verdict.overflow_of_ofLoop hv
  | ok v =>
    rw [hv] at h
    have hcarried : r.carryOut start rest parts v = .error e := h
    cases v with
    | keep | pattern => cases hcarried
    | clear | multiply =>
      obtain ⟨cause, -, he⟩ := FlattenError.ofOverflow_eq_error_iff.1 hcarried
      exact ⟨cause, he⟩

/-! ## 4. Steps -/

theorem run_cons {target : Target} {final : Flattener} {i : Instruction}
    (h : run target r (i :: rest) = .ok final) :
    ∃ r' rest', r.step target i rest = .ok (r', rest') ∧ run target r' rest' = .ok final := by
  rw [run] at h
  split at h
  · cases h
  · rename_i r' rest' hstep
    exact ⟨r', rest', hstep, h⟩

theorem step_of_not_loop {target : Target} {i : Instruction} (h : i.opcode ≠ .loopStart)
    (rest : List Instruction) : r.step target i rest = .ok (r.keep i, rest) := by
  simp [step, h]

/-- What the flattener does with any instruction. -/
theorem step_cases {target : Target} {i : Instruction}
    (h : r.step target i rest = .ok (r', rest')) :
    (i.opcode ≠ .loopStart ∧ r' = r.keep i ∧ rest' = rest) ∨
      ∃ parts, i.opcode = .loopStart ∧ LoopParts.find? 0 [] rest = some parts ∧
        LoopStep target r i rest parts r' rest' := by
  unfold step at h
  split at h
  · rename_i hloop
    split at h
    · cases h
    · rename_i parts hparts
      exact .inr ⟨parts, hloop, hparts, loopStep_iff.2 h⟩
  · rename_i hloop
    cases h
    exact .inl ⟨hloop, rfl, rfl⟩

/-- A step can only fail on a loop without end, or overflow. -/
theorem step_error_cases {target : Target} {i : Instruction} {e : FlattenError}
    (h : r.step target i rest = .error e) :
    (i.opcode = .loopStart ∧ LoopParts.find? 0 [] rest = none ∧
        e = .unmatchedLoop i.value i.position) ∨
      ∃ cause, e = .overflow cause := by
  unfold step at h
  split at h
  · rename_i hloop
    split at h
    · rename_i hnone
      cases h
      exact .inl ⟨hloop, hnone, rfl⟩
    · exact .inr (overflow_of_stepLoop h)
  · cases h

end Flattener

end TapeCompiler
