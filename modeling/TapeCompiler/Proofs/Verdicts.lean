/-
TapeCompiler.Proofs.Verdicts — what the flattener decides about a loop.

What becomes of a loop that may be entered depends on its body and on the
target, and not on the work under way: `Verdict.ofLoop` computes it.

Only scan and print loops depend on the target. The verdict on all others
is that of `Verdict.ofBody`, and a scan or print loop is one that would
stay a loop without them (`Verdict.ofBody_of_pattern`).

A loop that becomes products has been walked over three times: for its
pointer, for its counter, and for the products. The third walk refuses what
has no place in a counting loop, but the first two have ruled that out
(`neg_of_products_error`), so no verdict fails but on overflow
(`Verdict.overflow_of_ofLoop`).
-/
import TapeCompiler.Proofs.Deposits

namespace TapeCompiler

/-! ## 1. Scan and print loops -/

theorem patternOpcode_cases {target : Target} {body : List Instruction} {opcode : Opcode}
    (h : patternOpcode? target body = some opcode) :
    (∃ i, body = [i] ∧ i.value = 1 ∧ (i.opcode = .right ∧ opcode = .scanRight ∨
      i.opcode = .left ∧ opcode = .scanLeft)) ∨
    ∃ out next, body = [out, next] ∧ out.opcode = .write ∧ out.value = 1 ∧
      next.opcode = .right ∧ next.value = 1 ∧ opcode = .printRun := by
  unfold patternOpcode? at h
  split at h
  · rename_i i
    split at h
    · rename_i hguard
      simp only [Bool.and_eq_true, beq_iff_eq] at hguard
      refine .inl ⟨i, rfl, hguard.2, ?_⟩
      split at h <;> simp_all
    · cases h
  · rename_i out next
    split at h
    · rename_i hguard
      simp only [Bool.and_eq_true, beq_iff_eq] at hguard
      obtain ⟨⟨⟨⟨-, hw⟩, ho⟩, hr⟩, hu⟩ := hguard
      exact .inr ⟨out, next, rfl, hw, ho, hr, hu, by simpa using h.symm⟩
    · cases h
  · cases h

theorem opcode_of_pattern {target : Target} {body : List Instruction} {opcode : Opcode}
    (h : patternOpcode? target body = some opcode) :
    opcode = .scanRight ∨ opcode = .scanLeft ∨ opcode = .printRun := by
  rcases patternOpcode_cases h with ⟨_, -, -, ⟨-, hop⟩ | ⟨-, hop⟩⟩ | ⟨_, _, -, -, -, -, -, hop⟩
  · exact .inl hop
  · exact .inr (.inl hop)
  · exact .inr (.inr hop)

/-- Only C has instructions for whole loops. -/
theorem target_of_patternOpcode {target : Target} {body : List Instruction} {opcode : Opcode}
    (h : patternOpcode? target body = some opcode) : target = .c := by
  unfold patternOpcode? at h
  cases target with
  | c => rfl
  | _ =>
    simp only [Target.hasScan, Target.hasPrint, Bool.false_and] at h
    split at h <;> cases h

/-! ## 2. The walk for the products -/

theorem products_of_move {i : Instruction} (hmove : i.IsMove) {pointer : Int}
    (hdistance : i.displacement = .ok i.amount) (hrange : Operand.InRange (pointer + i.amount))
    (done rest : List Instruction) :
    products pointer done (i :: rest) = products (pointer + i.amount) done rest := by
  have hadd : Operand.add pointer i.amount = .ok (pointer + i.amount) :=
    Operand.checked_eq_ok_iff.2 ⟨hrange, rfl⟩
  rcases hmove with hop | hop <;>
    simp [products, hop, hdistance, hadd, FlattenError.ofOverflow, bind, Except.bind]

theorem counterDrop_of_move {i : Instruction} (hmove : i.IsMove) {pointer : Int}
    (hdistance : i.displacement = .ok i.amount) (hrange : Operand.InRange (pointer + i.amount))
    (drop : Int) (rest : List Instruction) :
    counterDrop? pointer drop (i :: rest) = counterDrop? (pointer + i.amount) drop rest := by
  have hadd : Operand.add pointer i.amount = .ok (pointer + i.amount) :=
    Operand.checked_eq_ok_iff.2 ⟨hrange, rfl⟩
  rcases hmove with hop | hop <;> simp [counterDrop?, hop, hdistance, hadd, bind, Except.bind]

/-- **The three walks agree.** In a body that the walk for the pointer takes as
simple and in which the walk for the counter meets no raise, the walk for the
products can only fail on a step down by a number that has no negative. -/
theorem neg_of_products_error {body done : List Instruction} {pointer drop final total : Int}
    {e : FlattenError} (hfinal : finalPointer? pointer body = .ok (some final))
    (hdrop : counterDrop? pointer drop body = .ok (some total))
    (h : products pointer done body = .error e) :
    ∃ i ∈ body, i.opcode = .sub ∧ ∃ cause, Operand.neg i.value = .error cause ∧
      e = .overflow cause := by
  induction body generalizing pointer drop done with
  | nil => cases h
  | cons i rest ih =>
    simp only [List.mem_cons, exists_eq_or_imp]
    rcases finalPointer_cons hfinal with ⟨hop | hop, hfinal⟩ | ⟨hmove, hdistance, hrange, hfinal⟩
    · by_cases hzero : pointer = 0
      · simp [counterDrop?, hop, hzero] at hdrop
      · simp only [counterDrop?, hop, hzero, if_false] at hdrop
        simp only [products, hop, hzero, if_false] at h
        exact .inr (ih hfinal hdrop h)
    · by_cases hzero : pointer = 0
      · simp only [counterDrop?, hop, hzero, if_true] at hdrop
        simp only [products, hop, hzero, if_true] at h
        obtain ⟨lower, -, hdrop⟩ := bind_eq_ok_iff.1 hdrop
        exact .inr (ih (hzero ▸ hfinal) hdrop h)
      · simp only [counterDrop?, hop, hzero, if_false] at hdrop
        simp only [products, hop, hzero, if_false] at h
        cases hneg : Operand.neg i.value with
        | error cause =>
          rw [hneg] at h
          cases h
          exact .inl ⟨hop, cause, rfl, rfl⟩
        | ok factor =>
          rw [hneg] at h
          exact .inr (ih hfinal hdrop h)
    · rw [counterDrop_of_move hmove hdistance hrange] at hdrop
      rw [products_of_move hmove hdistance hrange] at h
      exact .inr (ih hfinal hdrop h)

/-- Where the walks before it stop, so does the walk for the products. -/
example : products 0 [] [⟨.sub, 1, 0, none⟩, ⟨.write, 1, 0, none⟩] =
    .error (.unexpectedOpcode .write none) := by
  decide

/-! ## 3. Verdicts -/

/-- What becomes of a loop that may be entered. -/
inductive Verdict where
  /-- It stays a loop. -/
  | keep
  /-- One instruction stands for it. -/
  | pattern (opcode : Opcode)
  /-- It only clears the cell. -/
  | clear
  /-- Its counter goes down by `drop` in each round. -/
  | multiply (drop : Int) (terms : List Instruction)
  deriving DecidableEq, Repr

namespace Verdict

/-- The verdict on a simple body that does not just step the cell. -/
def ofCounter (body : List Instruction) : Except FlattenError Verdict := do
  match ← FlattenError.ofOverflow (counterDrop? 0 0 body) with
  | none => return keep
  | some drop =>
    if drop = 0 then return keep
    else
      let terms ← products 0 [] body
      return multiply drop terms

/-- The verdict on a simple body. -/
def ofSimple (body : List Instruction) : Except FlattenError Verdict :=
  match body with
  | [single] => if single.IsCellStep then .ok clear else ofCounter body
  | _ => ofCounter body

/-- The verdict on a body, scan and print loops apart. -/
def ofBody (body : List Instruction) : Except FlattenError Verdict := do
  if ← FlattenError.ofOverflow (isSimpleBody body) then ofSimple body else return keep

/-- The verdict on a body. -/
def ofLoop (target : Target) (body : List Instruction) : Except FlattenError Verdict :=
  match patternOpcode? target body with
  | some opcode => .ok (pattern opcode)
  | none => ofBody body

/-- What a loop is like that becomes products. -/
structure Multiplies (body : List Instruction) (drop : Int) (terms : List Instruction) : Prop where
  final : finalPointer? 0 body = .ok (some 0)
  drops : counterDrop? 0 0 body = .ok (some drop)
  nonzero : drop ≠ 0
  terms : products 0 [] body = .ok terms
  /-- Such a loop would be a clear. -/
  notStep : ∀ i, body = [i] → ¬ i.IsCellStep

variable {target : Target} {body : List Instruction}

theorem ofCounter_cases {v : Verdict} (h : ofCounter body = .ok v) :
    v = keep ∨ ∃ drop terms, v = multiply drop terms ∧ counterDrop? 0 0 body = .ok (some drop) ∧
      drop ≠ 0 ∧ products 0 [] body = .ok terms := by
  obtain ⟨drop?, hdrop, h⟩ := bind_eq_ok_iff.1 h
  rw [FlattenError.ofOverflow_eq_ok_iff] at hdrop
  cases drop? with
  | none =>
    cases h
    exact .inl rfl
  | some drop =>
    simp only at h
    split at h
    · cases h
      exact .inl rfl
    · rename_i hne
      obtain ⟨terms, hterms, h⟩ := bind_eq_ok_iff.1 h
      cases h
      exact .inr ⟨drop, terms, rfl, hdrop, hne, hterms⟩

/-- A body that steps the cell once is a clear, and any other one counts. -/
theorem ofSimple_cases (body : List Instruction) :
    (ofSimple body = .ok clear ∧ ∃ i, body = [i] ∧ i.IsCellStep) ∨
      (ofSimple body = ofCounter body ∧ ∀ i, body = [i] → ¬ i.IsCellStep) := by
  match body with
  | [] => exact .inr ⟨rfl, nofun⟩
  | [single] =>
    by_cases hstep : single.IsCellStep
    · exact .inl ⟨by simp [ofSimple, hstep], single, rfl, hstep⟩
    · refine .inr ⟨by simp [ofSimple, hstep], fun i hi => ?_⟩
      rwa [← List.singleton_inj.1 hi]
  | _ :: _ :: _ => exact .inr ⟨rfl, nofun⟩

theorem isSimpleBody_eq_true_iff :
    isSimpleBody body = .ok true ↔ finalPointer? 0 body = .ok (some 0) := by
  unfold isSimpleBody
  cases finalPointer? 0 body with
  | error cause => simp [bind, Except.bind]
  | ok final => simp [bind, Except.bind, pure, Except.pure]

/-- What the verdict on a body says about it. -/
theorem ofBody_cases {v : Verdict} (h : ofBody body = .ok v) :
    v = keep ∨ (v = clear ∧ ∃ i, body = [i] ∧ i.IsCellStep) ∨
      ∃ drop terms, v = multiply drop terms ∧ Multiplies body drop terms := by
  obtain ⟨simple, hsimple, h⟩ := bind_eq_ok_iff.1 h
  rw [FlattenError.ofOverflow_eq_ok_iff] at hsimple
  cases simple with
  | false =>
    cases h
    exact .inl rfl
  | true =>
    have hfinal := isSimpleBody_eq_true_iff.1 hsimple
    simp only [if_true] at h
    rcases ofSimple_cases body with ⟨hclear, hstep⟩ | ⟨hcounter, hother⟩
    · rw [hclear] at h
      cases h
      exact .inr (.inl ⟨rfl, hstep⟩)
    · rw [hcounter] at h
      rcases ofCounter_cases h with hv | ⟨drop, terms, hv, hdrop, hne, hterms⟩
      · exact .inl hv
      · exact .inr (.inr ⟨drop, terms, hv, hfinal, hdrop, hne, hterms, hother⟩)

theorem ofLoop_cases {v : Verdict} (h : ofLoop target body = .ok v) :
    (∃ opcode, v = pattern opcode ∧ patternOpcode? target body = some opcode) ∨
      (patternOpcode? target body = none ∧ ofBody body = .ok v) := by
  unfold ofLoop at h
  split at h
  · rename_i opcode hpattern
    cases h
    exact .inl ⟨opcode, rfl, hpattern⟩
  · rename_i hpattern
    exact .inr ⟨hpattern, h⟩

theorem patternOpcode_of_ofLoop {opcode : Opcode}
    (h : ofLoop target body = .ok (pattern opcode)) :
    patternOpcode? target body = some opcode := by
  rcases ofLoop_cases h with ⟨opcode', hv, hpattern⟩ | ⟨-, hbody⟩
  · cases hv
    exact hpattern
  · rcases ofBody_cases hbody with hv | ⟨hv, -⟩ | ⟨_, _, hv, -⟩ <;> cases hv

/-- A loop that only clears the cell is a loop over one step. -/
theorem single_of_clear (h : ofLoop target body = .ok clear) :
    ∃ i, body = [i] ∧ i.IsCellStep := by
  rcases ofLoop_cases h with ⟨_, hv, -⟩ | ⟨-, hbody⟩
  · cases hv
  · rcases ofBody_cases hbody with hv | ⟨-, hsingle⟩ | ⟨_, _, hv, -⟩
    · cases hv
    · exact hsingle
    · cases hv

/-- What is known of a loop that becomes products. -/
theorem multiplies_of_ofLoop {drop : Int} {terms : List Instruction}
    (h : ofLoop target body = .ok (multiply drop terms)) : Multiplies body drop terms := by
  rcases ofLoop_cases h with ⟨_, hv, -⟩ | ⟨-, hbody⟩
  · cases hv
  · rcases ofBody_cases hbody with hv | ⟨hv, -⟩ | ⟨_, _, hv, hmultiplies⟩
    · cases hv
    · cases hv
    · cases hv
      exact hmultiplies

/-- A body that does not bring the pointer back stays that of a loop. -/
theorem ofBody_of_finalPointer {final : Option Int} (h : finalPointer? 0 body = .ok final)
    (hne : final ≠ some 0) : ofBody body = .ok keep := by
  simp [ofBody, isSimpleBody, h, hne, FlattenError.ofOverflow, bind, Except.bind, pure,
    Except.pure]

/-- Without its own instruction, a scan or print loop stays a loop. -/
theorem ofBody_of_pattern {opcode : Opcode} (h : patternOpcode? target body = some opcode) :
    ofBody body = .ok keep := by
  rcases patternOpcode_cases h with ⟨i, rfl, hone, ⟨hop, -⟩ | ⟨hop, -⟩⟩ |
    ⟨out, next, rfl, hop, -⟩
  · have hfinal : finalPointer? 0 [i] = .ok (some 1) := by
      simp [finalPointer?, Instruction.displacement, hop, hone]
      rfl
    exact ofBody_of_finalPointer hfinal (by simp)
  · have hfinal : finalPointer? 0 [i] = .ok (some (-1)) := by
      simp [finalPointer?, Instruction.displacement, hop, hone]
      rfl
    exact ofBody_of_finalPointer hfinal (by simp)
  · have hfinal : finalPointer? 0 [out, next] = .ok none := by simp [finalPointer?, hop]
    exact ofBody_of_finalPointer hfinal (by simp)

theorem ofLoop_eq_keep_iff :
    ofLoop target body = .ok keep ↔
      patternOpcode? target body = none ∧ ofBody body = .ok keep := by
  constructor
  · intro h
    rcases ofLoop_cases h with ⟨opcode, hv, -⟩ | hkeep
    · cases hv
    · exact hkeep
  · rintro ⟨hpattern, hbody⟩
    simp [ofLoop, hpattern, hbody]

/-- Where a target does something to a loop, so does C. -/
theorem ofLoop_c_of_ne_keep {v : Verdict} (h : ofLoop target body = .ok v) (hv : v ≠ keep) :
    ofLoop .c body = .ok v := by
  rcases ofLoop_cases h with ⟨opcode, -, hpattern⟩ | ⟨-, hbody⟩
  · rwa [target_of_patternOpcode hpattern] at h
  · cases hc : patternOpcode? .c body with
    | some opcode =>
      rw [ofBody_of_pattern hc] at hbody
      exact absurd (Except.ok.inj hbody).symm hv
    | none => simp [ofLoop, hc, hbody]

/-! ## 4. When there is no verdict -/

theorem overflow_of_ofCounter {e : FlattenError} (hfinal : finalPointer? 0 body = .ok (some 0))
    (h : ofCounter body = .error e) : ∃ cause, e = .overflow cause := by
  unfold ofCounter at h
  cases hdrop : counterDrop? 0 0 body with
  | error cause =>
    rw [hdrop] at h
    cases h
    exact ⟨cause, rfl⟩
  | ok drop? =>
    cases drop? with
    | none =>
      rw [hdrop] at h
      cases h
    | some drop =>
      simp only [hdrop, FlattenError.ofOverflow, bind, Except.bind] at h
      split at h
      · cases h
      · cases hterms : products 0 [] body with
        | ok terms =>
          rw [hterms] at h
          cases h
        | error fault =>
          rw [hterms] at h
          cases h
          obtain ⟨_, -, -, cause, -, hcause⟩ := neg_of_products_error hfinal hdrop hterms
          exact ⟨cause, hcause⟩

/-- **A verdict fails on overflow only.** The products of a loop are asked for
once its body is known to be simple and its counter to go down. -/
theorem overflow_of_ofLoop {e : FlattenError} (h : ofLoop target body = .error e) :
    ∃ cause, e = .overflow cause := by
  unfold ofLoop at h
  split at h
  · cases h
  unfold ofBody at h
  cases hsimple : isSimpleBody body with
  | error cause =>
    rw [hsimple] at h
    cases h
    exact ⟨cause, rfl⟩
  | ok simple =>
    rw [hsimple] at h
    cases simple with
    | false => cases h
    | true =>
      have hfinal := isSimpleBody_eq_true_iff.1 hsimple
      have hbody : ofSimple body = .error e := h
      rcases ofSimple_cases body with ⟨hclear, -⟩ | ⟨hcounter, -⟩
      · rw [hclear] at hbody
        cases hbody
      · exact overflow_of_ofCounter hfinal (hcounter ▸ hbody)

end Verdict

end TapeCompiler
