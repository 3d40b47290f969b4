/-
TapeCompiler.Proofs.FlattenBounds — flattening with counts that fit.

All numbers that the flattener computes are sums of counts: where the
pointer goes, by how much the counter drops, how far from it a product
lies. So if all counts of a stream together stay below `2 ^ 63`, nothing it
computes overflows (`Flattener.unmatchedLoop_of_run`), and a stream that
closes its loops is flattened (`Flattener.exists_run`).

`Flattener.mem_output_of_run` says what stands in the result: what stood in
the stream, and a few kinds of new instructions. Those for scan and print
loops come for C only, products lie no further away than the counts add up
to, and all others are about the current cell.
-/
import TapeCompiler.Proofs.Deposits
import TapeCompiler.Proofs.Pipeline

namespace TapeCompiler

/-! ## 1. Walks over a body -/

namespace Instruction

variable {i : Instruction}

theorem IsMove.tally_eq (h : i.IsMove) : i.tally = i.value.natAbs := by
  rcases h with h | h <;> simp [tally, h, Opcode.isCounted]

theorem IsCellStep.tally_eq (h : i.IsCellStep) : i.tally = i.value.natAbs := by
  rcases h with h | h <;> simp [tally, h, Opcode.isCounted]

/-- What a move adds to the pointer is what it counts, up to its sign. -/
theorem IsMove.natAbs_amount (h : i.IsMove) : i.amount.natAbs = i.tally := by
  rw [h.tally_eq]
  rcases h with h | h <;> simp [amount, h]

theorem IsMove.displacement_of_tally (h : i.IsMove) (hi : i.tally < 2 ^ 63) :
    i.displacement = .ok i.amount := by
  rw [h.tally_eq] at hi
  rcases h with h | h
  · simp [displacement, amount, h]
  · simp only [displacement, amount, h]
    exact Operand.checked_of_natAbs_lt _ (by omega)

/-- A move that fits leads a walk over a body on to its target. -/
theorem IsMove.walk (h : i.IsMove) {pointer : Int} (hfits : pointer.natAbs + i.tally < 2 ^ 63)
    {α : Type} (f : Int → Except Overflow α) :
    (do
      let distance ← i.displacement
      let pointer ← Operand.add pointer distance
      f pointer) = f (pointer + i.amount) := by
  have hamount := h.natAbs_amount
  have hadd : Operand.add pointer i.amount = .ok (pointer + i.amount) :=
    Operand.checked_of_natAbs_lt _ (by omega)
  rw [h.displacement_of_tally (by omega)]
  simp [bind, Except.bind, hadd]

end Instruction

theorem exists_finalPointer (body : List Instruction) (pointer : Int)
    (h : pointer.natAbs + Stream.counts body < 2 ^ 63) :
    ∃ final, finalPointer? pointer body = .ok final := by
  induction body generalizing pointer with
  | nil => exact ⟨_, rfl⟩
  | cons i rest ih =>
    rw [Stream.counts_cons] at h
    have hmove (hop : i.IsMove) : ∃ final, (do
        let distance ← i.displacement
        let pointer ← Operand.add pointer distance
        finalPointer? pointer rest) = .ok final := by
      have hamount := hop.natAbs_amount
      rw [hop.walk (by omega)]
      exact ih _ (by omega)
    unfold finalPointer?
    split
    · rename_i hop
      exact hmove (.inl hop)
    · rename_i hop
      exact hmove (.inr hop)
    · exact ih _ (by omega)
    · exact ih _ (by omega)
    · exact ⟨_, rfl⟩

theorem exists_isSimpleBody (body : List Instruction) (h : Stream.counts body < 2 ^ 63) :
    ∃ simple, isSimpleBody body = .ok simple := by
  obtain ⟨final, hfinal⟩ := exists_finalPointer body 0 (by simpa using h)
  exact ⟨_, bind_eq_ok_iff.2 ⟨final, hfinal, rfl⟩⟩

theorem exists_counterDrop (body : List Instruction) (pointer drop : Int)
    (hpointer : pointer.natAbs + Stream.counts body < 2 ^ 63)
    (hdrop : drop.natAbs + Stream.counts body < 2 ^ 63) :
    ∃ result, counterDrop? pointer drop body = .ok result := by
  induction body generalizing pointer drop with
  | nil => exact ⟨_, rfl⟩
  | cons i rest ih =>
    rw [Stream.counts_cons] at hpointer hdrop
    have hmove (hop : i.IsMove) : ∃ result, (do
        let distance ← i.displacement
        let pointer ← Operand.add pointer distance
        counterDrop? pointer drop rest) = .ok result := by
      have hamount := hop.natAbs_amount
      rw [hop.walk (by omega)]
      exact ih _ _ (by omega) (by omega)
    unfold counterDrop?
    split
    · rename_i hop
      exact hmove (.inl hop)
    · rename_i hop
      exact hmove (.inr hop)
    · split
      · exact ⟨_, rfl⟩
      · exact ih _ _ (by omega) (by omega)
    · rename_i hop
      have htally := Instruction.IsCellStep.tally_eq (.inr hop)
      split
      · have hadd : Operand.add drop i.value = .ok (drop + i.value) :=
          Operand.checked_of_natAbs_lt _ (by omega)
        obtain ⟨result, hresult⟩ := ih pointer (drop + i.value) (by omega) (by omega)
        exact ⟨result, bind_eq_ok_iff.2 ⟨_, hadd, hresult⟩⟩
      · exact ih _ _ (by omega) (by omega)
    · exact ih _ _ (by omega) (by omega)

theorem Stream.tally_le_counts {code : List Instruction} {i : Instruction} (h : i ∈ code) :
    i.tally ≤ counts code := by
  obtain ⟨before, after, rfl⟩ := List.append_of_mem h
  rw [counts_append, counts_cons]
  omega

/-- The products of a counting loop that fits are found. -/
theorem exists_products {body : List Instruction} {pointer drop final total : Int}
    (hfinal : finalPointer? pointer body = .ok (some final))
    (hdrop : counterDrop? pointer drop body = .ok (some total))
    (h : Stream.counts body < 2 ^ 63) (done : List Instruction) :
    ∃ terms, products pointer done body = .ok terms := by
  cases hterms : products pointer done body with
  | ok terms => exact ⟨terms, rfl⟩
  | error e =>
    obtain ⟨i, hi, hop, cause, hneg, -⟩ := neg_of_products_error hfinal hdrop hterms
    have htally := Instruction.IsCellStep.tally_eq (.inr hop)
    have hle := Stream.tally_le_counts hi
    have hfits : Operand.neg i.value = .ok (-i.value) :=
      Operand.checked_of_natAbs_lt _ (by omega)
    rw [hfits] at hneg
    cases hneg

namespace Verdict

theorem exists_ofCounter {body : List Instruction} (hfinal : finalPointer? 0 body = .ok (some 0))
    (h : Stream.counts body < 2 ^ 63) : ∃ v, ofCounter body = .ok v := by
  obtain ⟨drop?, hdrop⟩ := exists_counterDrop body 0 0 (by simpa using h) (by simpa using h)
  have hfound := FlattenError.ofOverflow_eq_ok_iff.2 hdrop
  cases drop? with
  | none => exact ⟨keep, bind_eq_ok_iff.2 ⟨_, hfound, rfl⟩⟩
  | some drop =>
    by_cases hzero : drop = 0
    · exact ⟨keep, bind_eq_ok_iff.2 ⟨_, hfound, by simp [hzero, pure, Except.pure]⟩⟩
    · obtain ⟨terms, hterms⟩ := exists_products hfinal hdrop h []
      refine ⟨multiply drop terms, bind_eq_ok_iff.2 ⟨_, hfound, ?_⟩⟩
      simp only [hzero, if_false]
      exact bind_eq_ok_iff.2 ⟨_, hterms, rfl⟩

/-- There is a verdict on every loop that fits. -/
theorem exists_ofLoop (target : Target) {body : List Instruction}
    (h : Stream.counts body < 2 ^ 63) : ∃ v, ofLoop target body = .ok v := by
  unfold ofLoop
  split
  · exact ⟨_, rfl⟩
  obtain ⟨simple, hsimple⟩ := exists_isSimpleBody body h
  have hfound := FlattenError.ofOverflow_eq_ok_iff.2 hsimple
  cases simple with
  | false => exact ⟨keep, bind_eq_ok_iff.2 ⟨_, hfound, rfl⟩⟩
  | true =>
    have hsome : ∃ v, ofSimple body = .ok v := by
      rcases ofSimple_cases body with ⟨hclear, -⟩ | ⟨hcounter, -⟩
      · exact ⟨_, hclear⟩
      · rw [hcounter]
        exact exists_ofCounter (isSimpleBody_eq_true_iff.1 hsimple) h
    obtain ⟨v, hv⟩ := hsome
    exact ⟨v, bind_eq_ok_iff.2 ⟨_, hfound, hv⟩⟩

end Verdict

/-- No deposit lies further away than all moves together lead. -/
theorem natAbs_offset_le {body : List Instruction} {pointer : Int} {d : Deposit}
    (h : d ∈ deposits pointer body) : d.offset.natAbs ≤ pointer.natAbs + Stream.counts body := by
  induction body generalizing pointer with
  | nil => cases h
  | cons i rest ih =>
    rw [Stream.counts_cons]
    by_cases hcell : i.IsCellStep
    · rw [deposits_of_cellStep hcell] at h
      rcases List.mem_cons.1 h with rfl | h
      · exact Nat.le_add_right _ _
      · have hle := ih h
        omega
    by_cases hmove : i.IsMove
    · rw [deposits_of_move hmove] at h
      have hle := ih h
      have hamount := hmove.natAbs_amount
      omega
    · rw [deposits_of_other hcell hmove] at h
      have hle := ih h
      omega

/-! ## 2. No overflow -/

namespace Stream

theorem counts_le_of_suffix {code rest : List Instruction} (h : rest <:+ code) :
    counts rest ≤ counts code := by
  obtain ⟨before, rfl⟩ := h
  rw [counts_append]
  exact Nat.le_add_left _ _

/-- A loop's body and what follows it count no more than the stream they are
cut from. -/
theorem counts_parts {code : List Instruction} {parts : LoopParts}
    (h : LoopParts.find? 0 [] code = some parts) :
    counts parts.body + counts parts.rest ≤ counts code := by
  have hcode := congrArg counts (LoopParts.append_of_find? h)
  simp only [List.reverse_nil, List.nil_append, counts_append, counts_cons] at hcode
  omega

end Stream

namespace Flattener

theorem exists_finishCell (r : Flattener) (start : Instruction) (rest : List Instruction)
    (h : Stream.counts rest < 2 ^ 63) : ∃ pair, r.finishCell start rest = .ok pair := by
  cases rest with
  | nil => exact ⟨_, rfl⟩
  | cons next rest =>
    have hvalue : ∃ value?, storedValue? next = .ok value? := by
      unfold storedValue?
      split
      · exact ⟨_, rfl⟩
      · rename_i hop
        have htally := Instruction.IsCellStep.tally_eq (.inr hop)
        rw [Stream.counts_cons] at h
        exact ⟨_, bind_eq_ok_iff.2 ⟨_, Operand.checked_of_natAbs_lt _ (by omega), rfl⟩⟩
      · exact ⟨_, rfl⟩
    obtain ⟨value?, hvalue⟩ := hvalue
    cases value? with
    | none => exact ⟨_, bind_eq_ok_iff.2 ⟨_, hvalue, rfl⟩⟩
    | some value => exact ⟨_, bind_eq_ok_iff.2 ⟨_, hvalue, rfl⟩⟩

theorem exists_stepLoop (target : Target) (r : Flattener) (start : Instruction)
    (rest : List Instruction) (parts : LoopParts)
    (h : Stream.counts parts.body + Stream.counts parts.rest < 2 ^ 63) :
    ∃ pair, r.stepLoop target start rest parts = .ok pair := by
  have hfinish (r : Flattener) :
      ∃ pair, FlattenError.ofOverflow (r.finishCell start parts.rest) = .ok pair := by
    obtain ⟨pair, hpair⟩ := r.exists_finishCell start parts.rest (by omega)
    exact ⟨pair, FlattenError.ofOverflow_eq_ok_iff.2 hpair⟩
  have hbody : Stream.counts parts.body < 2 ^ 63 := by omega
  obtain ⟨v, hv⟩ := Verdict.exists_ofLoop target hbody
  rw [stepLoop_eq]
  split
  · exact ⟨_, rfl⟩
  have hcarried : ∃ pair, r.carryOut start rest parts v = .ok pair := by
    cases v with
    | keep => exact ⟨_, rfl⟩
    | pattern => exact ⟨_, rfl⟩
    | clear => exact hfinish _
    | multiply => exact hfinish _
  obtain ⟨pair, hpair⟩ := hcarried
  exact ⟨pair, bind_eq_ok_iff.2 ⟨v, hv, hpair⟩⟩

/-- With counts that fit, the only failure is a loop that is never closed. -/
theorem unmatchedLoop_of_run {target : Target} {r : Flattener} {code : List Instruction}
    {e : FlattenError} (hcounts : Stream.counts code < 2 ^ 63) (h : run target r code = .error e) :
    ∃ label position, e = .unmatchedLoop label position := by
  fun_induction run target r code with
  | case1 => cases h
  | case2 r i rest e' hstep =>
    cases h
    rw [Stream.counts_cons] at hcounts
    unfold step at hstep
    split at hstep
    · split at hstep
      · cases hstep
        exact ⟨_, _, rfl⟩
      · rename_i parts hparts
        have hle := Stream.counts_parts hparts
        obtain ⟨pair, hpair⟩ := r.exists_stepLoop target i rest parts (by omega)
        rw [hpair] at hstep
        cases hstep
    · cases hstep
  | case3 r i rest r' rest' hstep _ ih =>
    have hle := Stream.counts_le_of_suffix (suffix_of_step hstep)
    exact ih (by omega) h

/-- **Nothing overflows.** A stream that closes its loops is flattened if its
counts fit. -/
theorem exists_run (target : Target) (r : Flattener) {code : List Instruction}
    (hclosing : Stream.Closing code) (hcounts : Stream.counts code < 2 ^ 63) :
    ∃ final, run target r code = .ok final := by
  cases h : run target r code with
  | ok final => exact ⟨final, rfl⟩
  | error e =>
    obtain ⟨cause, rfl⟩ := overflow_of_run hclosing h
    obtain ⟨label, position, hmatch⟩ := unmatchedLoop_of_run hcounts h
    cases hmatch

/-! ## 3. What is written -/

/-- An instruction that the flattener makes for a target, when the counts
together are at most `reach`. -/
def Makes (target : Target) (reach : Nat) (i : Instruction) : Prop :=
  match i.opcode with
  | .scanRight | .scanLeft | .printRun => target = .c
  | .mul => i.offset.natAbs ≤ reach
  | .guard | .label | .div | .store => i.offset = 0
  | _ => False

variable {target : Target} {start : Instruction} {rest : List Instruction}

theorem Makes.mono {reach reach' : Nat} {i : Instruction} (h : Makes target reach i)
    (hle : reach ≤ reach') : Makes target reach' i := by
  unfold Makes at *
  cases hop : i.opcode <;> simp_all
  exact Nat.le_trans h hle

theorem makes_pattern {body : List Instruction} {opcode : Opcode}
    (h : patternOpcode? target body = some opcode) (reach : Nat) (position : Option Position) :
    Makes target reach ⟨opcode, 0, 0, position⟩ := by
  have htarget := target_of_patternOpcode h
  rcases opcode_of_pattern h with rfl | rfl | rfl <;> exact htarget

theorem makes_products (target : Target) {body terms : List Instruction}
    (h : products 0 [] body = .ok terms) :
    ∀ i ∈ terms, Makes target (Stream.counts body) i := by
  intro i hi
  obtain ⟨d, hd, -, rfl⟩ := mem_products h hi
  have hle := natAbs_offset_le hd
  simpa [Makes, Deposit.product] using hle

theorem mem_output_of_finishCell (target : Target) (reach : Nat) {r r' : Flattener}
    {rest' : List Instruction} (h : r.finishCell start rest = .ok (r', rest')) {i : Instruction}
    (hi : i ∈ r'.output) : i ∈ r.output ∨ Makes target reach i := by
  rcases finishCell_cases h with ⟨rfl, -⟩ | ⟨next, -, -, rfl⟩
  · rcases List.mem_cons.1 hi with rfl | hi
    · exact .inr (by simp [Makes])
    · exact .inl hi
  · rcases List.mem_cons.1 hi with rfl | hi
    · exact .inr (by simp [Makes])
    · exact .inl hi

theorem mem_output_of_clear {r : Flattener} {i : Instruction} (h : i ∈ r.clear.output) :
    i ∈ r.output := by
  rw [clear_eq] at h
  rw [← List.mem_reverse, ← settled_append_held]
  exact List.mem_append_left _ (List.mem_reverse.2 h)

theorem mem_output_of_multiply {r : Flattener} {drop : Int} {terms : List Instruction}
    {close : Instruction} {reach : Nat} (hterms : ∀ i ∈ terms, Makes target reach i)
    {i : Instruction} (hi : i ∈ (r.multiply start drop terms close).output) :
    i ∈ r.output ∨ Makes target reach i := by
  have hguard : Makes target reach ⟨.guard, start.value, 0, start.position⟩ := by simp [Makes]
  have hdiv : Makes target reach ⟨.div, drop, 0, start.position⟩ := by simp [Makes]
  have hlabel : Makes target reach ⟨.label, close.value, 0, close.position⟩ := by simp [Makes]
  simp only [multiply, List.mem_append, List.mem_reverse, List.mem_cons, List.not_mem_nil,
    or_false] at hi
  rcases hi with (((rfl | hi) | hi) | rfl) | hi
  · exact .inr hguard
  · split at hi
    · cases hi
    · exact .inr (List.mem_singleton.1 hi ▸ hdiv)
  · exact .inr (hterms i hi)
  · exact .inr hlabel
  · exact .inl hi

/-- A step writes what it reads, and what the flattener makes. -/
theorem mem_output_of_step {r r' : Flattener} {next : Instruction} {rest' : List Instruction}
    (h : r.step target next rest = .ok (r', rest')) {i : Instruction} (hi : i ∈ r'.output) :
    i ∈ r.output ∨ i = next ∨ Makes target (Stream.counts rest) i := by
  rcases step_cases h with ⟨-, rfl, -⟩ | ⟨parts, -, hparts, hloop⟩
  · rcases List.mem_cons.1 hi with rfl | hi
    · exact .inr (.inl rfl)
    · exact .inl hi
  have hle := Stream.counts_parts hparts
  cases hloop with
  | dead => exact .inl hi
  | kept =>
    rcases List.mem_cons.1 hi with rfl | hi
    · exact .inr (.inl rfl)
    · exact .inl hi
  | pattern _ verdict =>
    rcases List.mem_cons.1 hi with rfl | hi
    · exact .inr (.inr (makes_pattern (Verdict.patternOpcode_of_ofLoop verdict) _ _))
    · exact .inl hi
  | clear _ _ finish =>
    rcases mem_output_of_finishCell target (Stream.counts rest) finish hi with hi | hi
    · exact .inl (mem_output_of_clear hi)
    · exact .inr (.inr hi)
  | multiply _ verdict finish =>
    have hterms := (Verdict.multiplies_of_ofLoop verdict).terms
    rcases mem_output_of_finishCell target (Stream.counts rest) finish hi with hi | hi
    · rcases mem_output_of_multiply (makes_products target hterms) hi with hi | hi
      · exact .inl hi
      · exact .inr (.inr (hi.mono (by omega)))
    · exact .inr (.inr hi)

/-- **What a flattened stream holds**: what stood in the stream before, and
what the flattener makes. -/
theorem mem_output_of_run {r final : Flattener} {code : List Instruction}
    (h : run target r code = .ok final) {i : Instruction} (hi : i ∈ final.output) :
    i ∈ r.output ∨ i ∈ code ∨ Makes target (Stream.counts code) i := by
  fun_induction run target r code with
  | case1 =>
    cases h
    exact .inl hi
  | case2 => cases h
  | case3 r next rest r' rest' hstep _ ih =>
    have hsuffix := suffix_of_step hstep
    have hle := Stream.counts_le_of_suffix hsuffix
    have hle' : Stream.counts rest ≤ Stream.counts (next :: rest) := by simp
    rcases ih h with hi | hi | hi
    · rcases mem_output_of_step hstep hi with hi | rfl | hi
      · exact .inl hi
      · exact .inr (.inl (List.mem_cons_self ..))
      · exact .inr (.inr (hi.mono hle'))
    · exact .inr (.inl (hsuffix.subset hi))
    · exact .inr (.inr (hi.mono hle))

end Flattener

end TapeCompiler
