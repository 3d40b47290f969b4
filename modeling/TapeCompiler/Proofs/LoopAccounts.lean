/-
TapeCompiler.Proofs.LoopAccounts — what the counters of flattening say.

The flattener counts the rules it uses while it writes, and what it wrote
last it may take back. At the end the counters agree with the stream that was
written, and with the loops of the stream that was read.

* `Flattener.Balanced` is the account that every routine of the flattener
  keeps. A loop that was replaced owes the clear of its counter, which is
  written or folded with the next step, so the account has a debt of one in
  between. What is taken back is recorded nowhere (`Instruction.Unrecorded`).
* `Flattener.leads_of_step` is the account of the opening brackets. A step
  drops a loop as a whole, or leaves as many brackets as there were, in the
  output, in the counters and in what is still to be read.

Which loops are dropped can be said without the flattener: those that start
where another loop ended (`Stream.deadLoops`), for any target.
`Stream.statistics_exact` is the main result.
-/
import TapeCompiler.Proofs.Pipeline
import TapeCompiler.Proofs.LoopNesting

namespace TapeCompiler

/-! ## 1. Counting instructions -/

/-- The instruction sets the current cell to zero. -/
def Instruction.IsClearing (i : Instruction) : Prop :=
  i.opcode = .mul ∧ i.value = -1 ∧ i.offset = 0

instance Instruction.decidableIsClearing (i : Instruction) : Decidable i.IsClearing :=
  inferInstanceAs (Decidable (_ ∧ _ ∧ _))

namespace Stream

/-- How many instructions of a stream have this opcode. -/
def occurrences (op : Opcode) (code : List Instruction) : Nat :=
  code.countP (fun i => i.opcode = op)

/-- How many instructions of a stream set the current cell to zero. -/
def clearings (code : List Instruction) : Nat := code.countP (fun i => i.IsClearing)

variable {op : Opcode} {code : List Instruction}

@[simp] theorem occurrences_nil (op : Opcode) : occurrences op [] = 0 := rfl

@[simp] theorem occurrences_cons (op : Opcode) (i : Instruction) (code : List Instruction) :
    occurrences op (i :: code) = occurrences op code + if i.opcode = op then 1 else 0 := by
  simp [occurrences, List.countP_cons]

@[simp] theorem occurrences_append (op : Opcode) (code code' : List Instruction) :
    occurrences op (code ++ code') = occurrences op code + occurrences op code' :=
  List.countP_append

@[simp] theorem occurrences_reverse (op : Opcode) (code : List Instruction) :
    occurrences op code.reverse = occurrences op code :=
  List.countP_reverse

theorem occurrences_eq_zero (h : ∀ i ∈ code, i.opcode ≠ op) : occurrences op code = 0 :=
  List.countP_eq_zero.2 fun i hi => by simpa using h i hi

@[simp] theorem clearings_nil : clearings [] = 0 := rfl

@[simp] theorem clearings_cons (i : Instruction) (code : List Instruction) :
    clearings (i :: code) = clearings code + if i.IsClearing then 1 else 0 := by
  simp [clearings, List.countP_cons]

@[simp] theorem clearings_append (code code' : List Instruction) :
    clearings (code ++ code') = clearings code + clearings code' :=
  List.countP_append

@[simp] theorem clearings_reverse (code : List Instruction) :
    clearings code.reverse = clearings code :=
  List.countP_reverse

theorem clearings_eq_zero (h : ∀ i ∈ code, ¬ i.IsClearing) : clearings code = 0 :=
  List.countP_eq_zero.2 fun i hi => by simpa using h i hi

end Stream

/-! ## 2. The account of what is written -/

/-- No counter stands for the instruction. -/
def Instruction.Unrecorded (i : Instruction) : Prop :=
  i.opcode.symbol? ≠ none ∨ i.opcode = .store

theorem Instruction.Unrecorded.ne {i : Instruction} (h : i.Unrecorded) {op : Opcode}
    (hop : op.symbol? = none) (hstore : op ≠ .store) : i.opcode ≠ op := by
  rintro rfl
  exact h.elim (· hop) hstore

namespace Flattener

/-- The counters agree with the output, if this many flattened loops have
still to clear their counters. -/
structure Balanced (owed : Nat) (r : Flattener) : Prop where
  guards : Stream.occurrences .guard r.output = r.stats.multiplyLoops
  labels : Stream.occurrences .label r.output = r.stats.multiplyLoops
  divisions : Stream.occurrences .div r.output = r.stats.divisions
  scans : Stream.occurrences .scanRight r.output + Stream.occurrences .scanLeft r.output =
    r.stats.scans
  prints : Stream.occurrences .printRun r.output = r.stats.prints
  clears : Stream.clearings r.output + r.stats.foldedStores + owed =
    r.stats.clearLoops + r.stats.multiplyLoops
  products : ∀ i ∈ r.output, i.opcode = .mul → ¬ i.IsClearing → i.offset ≠ 0
  divided : r.stats.divisions ≤ r.stats.multiplyLoops
  removed : r.stats.removedStores ≤ r.stats.clearLoops

variable {target : Target} {owed : Nat} {r r' : Flattener} {output : List Instruction}
  {zero : Bool} {stats : LoopStats} {i start : Instruction} {rest rest' : List Instruction}

/-- At the start there is nothing to account for. -/
theorem balanced_empty : Balanced 0 {} := by
  constructor <;> simp

/-- An instruction without a counter may be written and taken back. -/
theorem balanced_cons_iff (hi : i.Unrecorded) (zero' : Bool) :
    Balanced owed ⟨i :: output, zero, stats⟩ ↔ Balanced owed ⟨output, zero', stats⟩ := by
  have hskip (op : Opcode) (hop : op.symbol? = none) (hstore : op ≠ .store) :
      Stream.occurrences op (i :: output) = Stream.occurrences op output := by
    simp [hi.ne hop hstore]
  have hguards := hskip .guard rfl (by decide)
  have hlabels := hskip .label rfl (by decide)
  have hdivisions := hskip .div rfl (by decide)
  have hright := hskip .scanRight rfl (by decide)
  have hleft := hskip .scanLeft rfl (by decide)
  have hprints := hskip .printRun rfl (by decide)
  have hmul : i.opcode ≠ .mul := hi.ne rfl (by decide)
  have hclears : Stream.clearings (i :: output) = Stream.clearings output := by
    simp [Instruction.IsClearing, hmul]
  constructor
  · intro h
    exact ⟨hguards ▸ h.guards, hlabels ▸ h.labels, hdivisions ▸ h.divisions,
      hright ▸ hleft ▸ h.scans, hprints ▸ h.prints, hclears ▸ h.clears,
      fun j hj => h.products j (List.mem_cons_of_mem _ hj), h.divided, h.removed⟩
  · intro h
    refine ⟨hguards.trans h.guards, hlabels.trans h.labels, hdivisions.trans h.divisions,
      (congrArg₂ (· + ·) hright hleft).trans h.scans, hprints.trans h.prints, ?_, ?_,
      h.divided, h.removed⟩
    · rw [← h.clears, hclears]
    · intro j hj hop
      rcases List.mem_cons.1 hj with rfl | hj
      · exact absurd hop hmul
      · exact h.products j hj hop

/-- An instruction of the source is written without a counter. -/
theorem Balanced.keep (h : r.Balanced owed) (hsource : i.opcode.symbol? ≠ none) :
    (r.keep i).Balanced owed :=
  (balanced_cons_iff (.inl hsource) r.cellIsZero).2 h

theorem Balanced.dropDead (h : r.Balanced owed) : r.dropDead.Balanced owed :=
  ⟨h.guards, h.labels, h.divisions, h.scans, h.prints, h.clears, h.products, h.divided, h.removed⟩

/-- A scan or print loop is counted with the instruction that stands for it. -/
theorem Balanced.putPattern (h : r.Balanced owed) {body : List Instruction} {opcode : Opcode}
    (hpattern : patternOpcode? target body = some opcode) (start : Instruction) :
    (r.putPattern opcode start).Balanced owed := by
  obtain ⟨hg, hl, hd, hs, hp, hc, hm, hdivided, hremoved⟩ := h
  rcases opcode_of_pattern hpattern with rfl | rfl | rfl <;> constructor <;>
    simp_all [Flattener.putPattern, Instruction.IsClearing] <;> omega

/-- What a clear takes back was not counted when it was written. -/
theorem unrecorded_of_overwritten (h : overwritten i = true) : i.Unrecorded := by
  unfold overwritten at h
  unfold Instruction.Unrecorded
  cases hop : i.opcode <;> simp_all [Opcode.symbol?]

/-- A cleared loop has a clear to write, whatever it took back. -/
theorem Balanced.clear (h : r.Balanced owed) : r.clear.Balanced (owed + 1) := by
  have hcounted (output : List Instruction) (zero : Bool) (removed : Nat) (hone : removed ≤ 1)
      (h : Balanced owed ⟨output, zero, r.stats⟩) :
      Balanced (owed + 1) ⟨output, zero,
        { r.stats with
          clearLoops := r.stats.clearLoops + 1
          removedStores := r.stats.removedStores + removed }⟩ := by
    have hclears := h.clears
    have hremoved := h.removed
    refine ⟨h.guards, h.labels, h.divisions, h.scans, h.prints, ?_, h.products, h.divided, ?_⟩
    · simp only at hclears ⊢
      omega
    · simp only at hremoved ⊢
      omega
  obtain ⟨output, zero, stats⟩ := r
  cases output with
  | nil => exact hcounted [] zero 0 (Nat.zero_le _) h
  | cons previous older =>
    cases hover : overwritten previous with
    | true =>
      have holder : Balanced owed ⟨older, zero, stats⟩ :=
        (balanced_cons_iff (unrecorded_of_overwritten hover) zero).1 h
      simpa [Flattener.clear, hover] using hcounted older zero 1 (Nat.le_refl _) holder
    | false => simpa [Flattener.clear, hover] using hcounted _ zero 0 (Nat.zero_le _) h

/-- Products go to other cells, so none of them is a clear. -/
theorem beside_of_mem_products {body terms : List Instruction}
    (h : products 0 [] body = .ok terms) : ∀ i ∈ terms, i.opcode = .mul ∧ i.offset ≠ 0 := by
  intro i hi
  obtain ⟨d, -, hbeside, rfl⟩ := mem_products h hi
  exact ⟨rfl, hbeside⟩

/-- Products come with a guard, a label, and at most one division. The clear
of the counter is still owed. -/
theorem Balanced.multiply (h : r.Balanced owed) {body terms : List Instruction}
    (hterms : TapeCompiler.products 0 [] body = .ok terms) (start : Instruction) (drop : Int)
    (close : Instruction) : (r.multiply start drop terms close).Balanced (owed + 1) := by
  have hproducts := beside_of_mem_products hterms
  have hnone (op : Opcode) (hop : op ≠ .mul) : Stream.occurrences op terms = 0 :=
    Stream.occurrences_eq_zero fun i hi => by
      rw [(hproducts i hi).1]
      exact hop.symm
  have hclearings : Stream.clearings terms = 0 :=
    Stream.clearings_eq_zero fun i hi hclearing => (hproducts i hi).2 hclearing.2.2
  obtain ⟨hg, hl, hd, hs, hp, hc, hm, hdivided, hremoved⟩ := h
  have hbeside : ∀ i ∈ (r.multiply start drop terms close).output,
      i.opcode = .mul → ¬ i.IsClearing → i.offset ≠ 0 := by
    intro i hi hop hclearing
    have hmem : i ∈ terms ∨ i ∈ r.output := by
      by_cases hone : drop = 1 <;> simp [Flattener.multiply, hone] at hi <;> grind
    rcases hmem with hi | hi
    · exact (hproducts i hi).2
    · exact hm i hi hop hclearing
  by_cases hone : drop = 1 <;> refine ⟨?_, ?_, ?_, ?_, ?_, ?_, hbeside, ?_, ?_⟩ <;>
    simp [Flattener.multiply, hone, hnone, hclearings, Instruction.IsClearing] <;> omega

/-- A clear pays what is owed. -/
theorem Balanced.putClear (h : r.Balanced (owed + 1)) (start : Instruction) :
    (r.putClear start).Balanced owed := by
  obtain ⟨hg, hl, hd, hs, hp, hc, hm, hdivided, hremoved⟩ := h
  have hbeside : ∀ i ∈ (r.putClear start).output,
      i.opcode = .mul → ¬ i.IsClearing → i.offset ≠ 0 :=
    List.forall_mem_cons.2 ⟨fun _ hother => absurd ⟨rfl, rfl, rfl⟩ hother, hm⟩
  refine ⟨?_, ?_, ?_, ?_, ?_, ?_, hbeside, hdivided, hremoved⟩ <;>
    simp [Flattener.putClear, Instruction.IsClearing] <;> omega

/-- So does a store, which is counted instead. -/
theorem Balanced.putStore (h : r.Balanced (owed + 1)) (value : Int) (next : Instruction) :
    (r.putStore value next).Balanced owed := by
  have hfolded : Balanced owed ⟨r.output, r.cellIsZero,
      { r.stats with foldedStores := r.stats.foldedStores + 1 }⟩ := by
    obtain ⟨hg, hl, hd, hs, hp, hc, hm, hdivided, hremoved⟩ := h
    refine ⟨hg, hl, hd, hs, hp, ?_, hm, hdivided, hremoved⟩
    simp only
    omega
  exact (balanced_cons_iff (.inr rfl) r.cellIsZero).2 hfolded

/-- The end of a flattened loop pays its debt. -/
theorem Balanced.finishCell (h : r.Balanced (owed + 1))
    (hfinish : r.finishCell start rest = .ok (r', rest')) : r'.Balanced owed := by
  rcases finishCell_cases hfinish with ⟨rfl, -⟩ | ⟨next, -, -, rfl⟩
  · exact h.putClear start
  · exact h.putStore _ next

/-- One step keeps the account. -/
theorem Balanced.step (h : r.Balanced owed) (hsource : i.opcode.symbol? ≠ none)
    (hstep : r.step target i rest = .ok (r', rest')) : r'.Balanced owed := by
  rcases step_cases hstep with ⟨-, rfl, -⟩ | ⟨parts, -, -, hloop⟩
  · exact h.keep hsource
  · cases hloop with
    | dead => exact h.dropDead
    | kept => exact h.keep hsource
    | pattern _ verdict => exact h.putPattern (Verdict.patternOpcode_of_ofLoop verdict) i
    | clear _ _ finish => exact h.clear.finishCell finish
    | multiply _ verdict finish =>
      exact (h.multiply (Verdict.multiplies_of_ofLoop verdict).terms _ _ _).finishCell finish

/-- So does the work on a stream. -/
theorem balanced_of_run {code : List Instruction} {final : Flattener}
    (hsource : ∀ i ∈ code, i.opcode.symbol? ≠ none) (h : r.Balanced owed)
    (hrun : run target r code = .ok final) : final.Balanced owed := by
  fun_induction run target r code with
  | case1 =>
    cases hrun
    exact h
  | case2 => cases hrun
  | case3 r i rest r' rest' hstep _ ih =>
    refine ih (fun j hj => hsource j ((suffix_of_step hstep).subset hj)) ?_ hrun
    exact h.step (hsource i (List.mem_cons_self ..)) hstep

end Flattener

/-! ## 3. Dead loops -/

namespace Stream

/-- The loops of a stream that are never entered because they start where
another loop ended; the loops inside go with them. `behind` says that the
stream itself starts behind a loop. -/
def deadLoops (behind : Bool) : List Instruction → List (List Instruction)
  | [] => []
  | i :: rest =>
    if behind = true ∧ i.opcode = .loopStart then
      match h : LoopParts.find? 0 [] rest with
      | none => deadLoops false rest
      | some parts =>
        have : parts.rest.length < rest.length := LoopParts.length_rest_lt h
        (i :: (parts.body ++ [parts.close])) :: deadLoops true parts.rest
    else deadLoops (i.opcode == .loopEnd) rest
termination_by code => code.length

variable {behind : Bool} {i start close : Instruction} {body rest more : List Instruction}
  {parts : LoopParts}

@[simp] theorem deadLoops_nil (behind : Bool) : deadLoops behind [] = [] := by rw [deadLoops]

/-- Behind a loop, the next one is dead, with all that is inside it. -/
theorem deadLoops_cons_dead (hs : i.opcode = .loopStart)
    (hparts : LoopParts.find? 0 [] rest = some parts) :
    deadLoops true (i :: rest) =
      (i :: (parts.body ++ [parts.close])) :: deadLoops true parts.rest := by
  rw [deadLoops, if_pos ⟨rfl, hs⟩]
  split
  · rename_i hnone
    rw [hparts] at hnone
    cases hnone
  · rename_i found hfound
    rw [hparts] at hfound
    cases hfound
    rfl

/-- Any other instruction only decides what comes behind it. -/
theorem deadLoops_cons_live (h : ¬ (behind = true ∧ i.opcode = .loopStart)) :
    deadLoops behind (i :: rest) = deadLoops (i.opcode == .loopEnd) rest := by
  rw [deadLoops, if_neg h]

/-- No loop is dead in a body without loops. -/
theorem deadLoops_body (hbody : ∀ i ∈ body, i.opcode ≠ .loopStart)
    (hclose : close.opcode = .loopEnd) (behind : Bool) :
    deadLoops behind (body ++ close :: more) = deadLoops true more := by
  induction body generalizing behind with
  | nil =>
    rw [List.nil_append, deadLoops_cons_live (by simp [hclose]), hclose]
    rfl
  | cons i body ih =>
    have hi := hbody i (List.mem_cons_self ..)
    rw [List.cons_append, deadLoops_cons_live (by simp [hi])]
    exact ih (fun j hj => hbody j (List.mem_cons_of_mem _ hj)) _

end Stream

namespace Flattener

/-- What the flattener passes over in the steps that count a dead loop. -/
def dropped (target : Target) (r : Flattener) : List Instruction → List (List Instruction)
  | [] => []
  | i :: rest =>
    match h : r.step target i rest with
    | .error _ => []
    | .ok (r', rest') =>
      let passed := i :: rest.take (rest.length - rest'.length)
      have : rest'.length ≤ rest.length := length_le_of_step h
      (if r.stats.deadLoops < r'.stats.deadLoops then [passed] else []) ++ dropped target r' rest'
termination_by code => code.length
decreasing_by exact Nat.lt_succ_of_le this

/-- The opening brackets that a flattener has taken in and not dropped: those
it wrote, and those of the loops it replaced. -/
def openings (r : Flattener) : Nat :=
  Stream.occurrences .loopStart r.output + r.stats.clearLoops + r.stats.multiplyLoops +
    r.stats.scans + r.stats.prints

/-- The work on a stream leads to another flattener and a rest of the stream,
and no loop was dropped on the way. -/
structure Leads (r : Flattener) (code : List Instruction) (r' : Flattener)
    (rest' : List Instruction) : Prop where
  counter : r'.stats.deadLoops = r.stats.deadLoops
  dead : Stream.deadLoops r'.cellIsZero rest' = Stream.deadLoops r.cellIsZero code
  openings : r'.openings + Stream.occurrences .loopStart rest' =
    r.openings + Stream.occurrences .loopStart code

variable {target : Target} {r r₁ r' final : Flattener} {i start close : Instruction}
  {code rest rest' : List Instruction} {parts : LoopParts}

/-- An instruction that is written takes its bracket along. -/
theorem leads_keep (h : ¬ (r.cellIsZero = true ∧ i.opcode = .loopStart)) :
    Leads r (i :: rest) (r.keep i) rest where
  counter := rfl
  dead := (Stream.deadLoops_cons_live h).symm
  openings := by
    simp only [Flattener.openings, Flattener.keep, Stream.occurrences_cons]
    omega

/-- A step behind a flattened loop is not part of a loop, folded or not. -/
theorem leads_finishCell (h : r.finishCell start rest = .ok (r', rest')) :
    Leads { r with cellIsZero := true } rest r' rest' := by
  rcases finishCell_cases h with ⟨rfl, rfl⟩ | ⟨next, hnext, rfl, rfl⟩
  · refine ⟨rfl, rfl, ?_⟩
    simp [Flattener.openings, Flattener.putClear]
  · have hstart : next.opcode ≠ .loopStart := by rcases hnext with h | h <;> simp [h]
    have hend : (next.opcode == .loopEnd) = false := by rcases hnext with h | h <;> simp [h]
    refine ⟨rfl, ?_, ?_⟩
    · rw [Stream.deadLoops_cons_live (by simp [hstart]), hend]
      rfl
    · simp [Flattener.openings, Flattener.putStore, hstart]

/-- A loop over a body without loops is replaced by one that is counted. -/
theorem leads_replaced (hs : start.opcode = .loopStart)
    (hparts : LoopParts.find? 0 [] rest = some parts)
    (hbody : ∀ i ∈ parts.body, i.opcode ≠ .loopStart) (hlive : r.cellIsZero = false)
    (hopenings : r₁.openings = r.openings + 1) (hcounter : r₁.stats.deadLoops = r.stats.deadLoops)
    (h : Leads { r₁ with cellIsZero := true } parts.rest r' rest') :
    Leads r (start :: rest) r' rest' := by
  obtain ⟨-, -, hclose, -⟩ := LoopParts.exists_tree hparts
  have hcode : rest = parts.body ++ parts.close :: parts.rest := by
    simpa using LoopParts.append_of_find? hparts
  refine ⟨h.counter.trans hcounter, ?_, ?_⟩
  · rw [h.dead, Stream.deadLoops_cons_live (by simp [hlive]), hcode,
      Stream.deadLoops_body hbody hclose]
  · have hnone := Stream.occurrences_eq_zero hbody
    have hsame : Flattener.openings { r₁ with cellIsZero := true } = r₁.openings := rfl
    rw [h.openings, hsame, hopenings, hcode]
    simp [hs, hclose, hnone]
    omega

/-- A cleared loop is counted, and what it takes back is no bracket. -/
theorem openings_clear (r : Flattener) : r.clear.openings = r.openings + 1 := by
  obtain ⟨output, zero, stats⟩ := r
  cases output with
  | nil =>
    simp only [openings, clear]
    omega
  | cons previous older =>
    cases hover : overwritten previous with
    | true =>
      have hprevious : previous.opcode ≠ .loopStart := by
        intro hop
        simp [overwritten, hop] at hover
      simp [openings, clear, hover, hprevious]
      omega
    | false =>
      simp [openings, clear, hover]
      omega

/-- Scan and print loops have no loops inside. -/
theorem not_loopStart_of_pattern {body : List Instruction} {opcode : Opcode}
    (h : patternOpcode? target body = some opcode) : ∀ i ∈ body, i.opcode ≠ .loopStart := by
  rcases patternOpcode_cases h with ⟨step, rfl, -, ⟨hstep, -⟩ | ⟨hstep, -⟩⟩ |
    ⟨out, next, rfl, hout, -, hnext, -, -⟩
  · simp [hstep]
  · simp [hstep]
  · simp [hout, hnext]

theorem openings_putPattern {body : List Instruction} {opcode : Opcode}
    (h : patternOpcode? target body = some opcode) (start : Instruction) :
    (r.putPattern opcode start).openings = r.openings + 1 := by
  rcases opcode_of_pattern h with rfl | rfl | rfl <;> simp [openings, putPattern] <;> omega

/-- So is a loop that became products. -/
theorem openings_multiply {body terms : List Instruction}
    (hterms : products 0 [] body = .ok terms) (start : Instruction) (drop : Int)
    (close : Instruction) : (r.multiply start drop terms close).openings = r.openings + 1 := by
  have hnone : Stream.occurrences .loopStart terms = 0 :=
    Stream.occurrences_eq_zero fun i hi => by simp [(beside_of_mem_products hterms i hi).1]
  by_cases hone : drop = 1 <;> simp [openings, multiply, hone, hnone] <;> omega

/-- **A step drops a loop as a whole, or no bracket is lost.** -/
theorem leads_of_step (h : r.step target i rest = .ok (r', rest')) :
    (∃ parts, r.cellIsZero = true ∧ i.opcode = .loopStart ∧
        LoopParts.find? 0 [] rest = some parts ∧ r' = r.dropDead ∧ rest' = parts.rest) ∨
      Leads r (i :: rest) r' rest' := by
  rcases step_cases h with ⟨hother, rfl, rfl⟩ | ⟨parts, hs, hparts, hloop⟩
  · exact .inr (leads_keep (by simp [hother]))
  cases hloop with
  | dead hzero => exact .inl ⟨parts, hzero, hs, hparts, rfl, rfl⟩
  | kept hlive => exact .inr (leads_keep (by simp [hlive]))
  | @pattern opcode hlive verdict =>
    have hpattern := Verdict.patternOpcode_of_ofLoop verdict
    have hcounter : (r.putPattern opcode i).stats.deadLoops = r.stats.deadLoops := by
      rw [putPattern_eq, LoopStats.ofPattern]
      split <;> rfl
    exact .inr (leads_replaced hs hparts (not_loopStart_of_pattern hpattern) hlive
      (openings_putPattern hpattern i) hcounter ⟨rfl, rfl, rfl⟩)
  | clear hlive verdict finish =>
    obtain ⟨step, single, counts⟩ := Verdict.single_of_clear verdict
    have hbody : ∀ j ∈ parts.body, j.opcode ≠ .loopStart := by
      rcases counts with hop | hop <;> simp [single, hop]
    have hcounter : r.clear.stats.deadLoops = r.stats.deadLoops := by
      rw [clear_eq]
      rfl
    exact .inr (leads_replaced hs hparts hbody hlive (openings_clear r) hcounter
      (leads_finishCell finish))
  | multiply hlive verdict finish =>
    have hmultiplies := Verdict.multiplies_of_ofLoop verdict
    have hbody : ∀ j ∈ parts.body, j.opcode ≠ .loopStart := fun j hj hop => by
      have hplain := plain_of_finalPointer hmultiplies.final j hj
      simp [Instruction.Plain, hop, Opcode.opensBlock] at hplain
    exact .inr (leads_replaced hs hparts hbody hlive (openings_multiply hmultiplies.terms _ _ _)
      rfl (leads_finishCell finish))

/-- What has become of the loops of a stream when it is worked off. -/
structure LoopsSettled (target : Target) (r : Flattener) (code : List Instruction)
    (final : Flattener) : Prop where
  dropped : dropped target r code = Stream.deadLoops r.cellIsZero code
  counter : final.stats.deadLoops =
    r.stats.deadLoops + (Stream.deadLoops r.cellIsZero code).length
  openings : r.openings + Stream.occurrences .loopStart code =
    final.openings + Stream.occurrences .loopStart (Stream.deadLoops r.cellIsZero code).flatten

/-- A step has dropped a loop if its counter went up. -/
theorem dropped_cons (hstep : r.step target i rest = .ok (r', rest')) :
    dropped target r (i :: rest) =
      (if r.stats.deadLoops < r'.stats.deadLoops then
        [i :: rest.take (rest.length - rest'.length)] else []) ++ dropped target r' rest' := by
  rw [dropped]
  split
  · rename_i hfails
    rw [hstep] at hfails
    cases hfails
  · rename_i hfound
    rw [hstep] at hfound
    cases hfound
    rfl

/-- A loop that is dropped is settled as a dead one. -/
theorem loopsSettled_of_dead (hzero : r.cellIsZero = true) (hs : start.opcode = .loopStart)
    (hparts : LoopParts.find? 0 [] rest = some parts)
    (hstep : r.step target start rest = .ok (r.dropDead, parts.rest))
    (h : LoopsSettled target r.dropDead parts.rest final) :
    LoopsSettled target r (start :: rest) final := by
  have hcode : rest = (parts.body ++ [parts.close]) ++ parts.rest := by
    simpa using LoopParts.append_of_find? hparts
  have hpassed : rest.take (rest.length - parts.rest.length) = parts.body ++ [parts.close] := by
    rw [hcode, List.length_append, Nat.add_sub_cancel, List.take_left]
  have hdead : Stream.deadLoops r.cellIsZero (start :: rest) =
      (start :: (parts.body ++ [parts.close])) :: Stream.deadLoops true parts.rest := by
    rw [hzero, Stream.deadLoops_cons_dead hs hparts]
  have hnext : Stream.deadLoops r.dropDead.cellIsZero parts.rest =
      Stream.deadLoops true parts.rest := congrArg (Stream.deadLoops · parts.rest) hzero
  have hcounted : r.dropDead.stats.deadLoops = r.stats.deadLoops + 1 := rfl
  have hsame : r.dropDead.openings = r.openings := rfl
  refine ⟨?_, ?_, ?_⟩
  · rw [dropped_cons hstep, if_pos (hcounted ▸ Nat.lt_succ_self _), hpassed, hdead, h.dropped,
      hnext, List.singleton_append]
  · rw [h.counter, hcounted, hnext, hdead, List.length_cons]
    omega
  · have hopenings := h.openings
    rw [hnext, hsame] at hopenings
    rw [hdead]
    nth_rewrite 1 [hcode]
    simp only [Stream.occurrences_cons, Stream.occurrences_append, List.flatten_cons]
    omega

/-- Every other step settles nothing, and loses no bracket. -/
theorem loopsSettled_of_leads (hleads : Leads r (i :: rest) r' rest')
    (hstep : r.step target i rest = .ok (r', rest')) (h : LoopsSettled target r' rest' final) :
    LoopsSettled target r (i :: rest) final := by
  refine ⟨?_, ?_, ?_⟩
  · rw [dropped_cons hstep, if_neg (hleads.counter ▸ Nat.lt_irrefl _), h.dropped, hleads.dead,
      List.nil_append]
  · rw [h.counter, hleads.counter, hleads.dead]
  · rw [← hleads.openings, h.openings, hleads.dead]

/-- **A run settles all loops of its stream.** -/
theorem loopsSettled_of_run (hrun : run target r code = .ok final) :
    LoopsSettled target r code final := by
  fun_induction run target r code with
  | case1 =>
    cases hrun
    constructor <;> simp [dropped]
  | case2 => cases hrun
  | case3 r i rest r' rest' hstep _ ih =>
    have hrest := ih hrun
    rcases leads_of_step hstep with ⟨parts, hzero, hs, hparts, rfl, rfl⟩ | hleads
    · exact loopsSettled_of_dead hzero hs hparts hstep hrest
    · exact loopsSettled_of_leads hleads hstep hrest

end Flattener

/-! ## 4. The statistics of a pass -/

namespace Stream

/-- The counters of a pass say what it did: what it wrote, and what became of
the loops that it read. -/
structure Accounted (target : Target) (code code' : List Instruction) (n : LoopStats) : Prop where
  guards : occurrences .guard code' = n.multiplyLoops
  labels : occurrences .label code' = n.multiplyLoops
  divisions : occurrences .div code' = n.divisions
  scans : occurrences .scanRight code' + occurrences .scanLeft code' = n.scans
  prints : occurrences .printRun code' = n.prints
  /-- Every flattened loop clears its counter, or a step behind it is folded
  with the clear. -/
  clears : clearings code' + n.foldedStores = n.clearLoops + n.multiplyLoops
  /-- All other products lie beside the counter. -/
  products : ∀ i ∈ code', i.opcode = .mul → ¬ i.IsClearing → i.offset ≠ 0
  divided : n.divisions ≤ n.multiplyLoops
  removed : n.removedStores ≤ n.clearLoops
  /-- What is dropped are the loops behind loops. -/
  dropped : Flattener.dropped target {} code = deadLoops false code
  deadLoops : n.deadLoops = (deadLoops false code).length
  /-- Every loop is still there, was replaced, or went with a dropped one. -/
  loops : occurrences .loopStart code =
    occurrences .loopStart code' +
      (n.clearLoops + n.multiplyLoops + n.scans + n.prints) +
      occurrences .loopStart (Flattener.dropped target {} code).flatten

variable {target : Target} {code code' : List Instruction} {n : LoopStats}

/-- **The counters of flattening are exact** for every stream that has only
instructions of the source language. -/
theorem statistics_exact (hsource : ∀ i ∈ code, i.opcode.symbol? ≠ none)
    (h : flattenWithStats target code = .ok (code', n)) : Accounted target code code' n := by
  obtain ⟨final, hrun, h⟩ := bind_eq_ok_iff.1 h
  cases h
  have written := Flattener.balanced_of_run hsource Flattener.balanced_empty hrun
  have settled := Flattener.loopsSettled_of_run hrun
  exact
    { guards := by rw [occurrences_reverse, written.guards]
      labels := by rw [occurrences_reverse, written.labels]
      divisions := by rw [occurrences_reverse, written.divisions]
      scans := by rw [occurrences_reverse, occurrences_reverse, written.scans]
      prints := by rw [occurrences_reverse, written.prints]
      clears := by rw [clearings_reverse, ← written.clears, Nat.add_zero]
      products := fun i hi => written.products i (List.mem_reverse.1 hi)
      divided := written.divided
      removed := written.removed
      dropped := settled.dropped
      deadLoops := by simpa using settled.counter
      loops := by
        have hopenings := settled.openings
        rw [← settled.dropped] at hopenings
        rw [occurrences_reverse]
        simp only [Flattener.openings, occurrences_nil] at hopenings
        omega }

/-- All rules in one stream: a step that goes with a clear, one that is
folded, a division, two loops dropped as one, a scan, a print, and a loop
that stays. -/
theorem statistics_exact_all_rules :
    ∃ (code code' : List Instruction) (n : LoopStats),
      code = [⟨.add, 3, 0, none⟩, ⟨.loopStart, 1, 0, none⟩, ⟨.sub, 1, 0, none⟩,
        ⟨.loopEnd, 1, 0, none⟩, ⟨.add, 2, 0, none⟩, ⟨.loopStart, 2, 0, none⟩,
        ⟨.sub, 2, 0, none⟩, ⟨.right, 1, 0, none⟩, ⟨.add, 1, 0, none⟩, ⟨.left, 1, 0, none⟩,
        ⟨.loopEnd, 2, 0, none⟩, ⟨.loopStart, 3, 0, none⟩, ⟨.loopStart, 4, 0, none⟩,
        ⟨.loopEnd, 4, 0, none⟩, ⟨.loopEnd, 3, 0, none⟩, ⟨.right, 1, 0, none⟩,
        ⟨.loopStart, 5, 0, none⟩, ⟨.right, 1, 0, none⟩, ⟨.loopEnd, 5, 0, none⟩,
        ⟨.right, 1, 0, none⟩, ⟨.loopStart, 6, 0, none⟩, ⟨.write, 1, 0, none⟩,
        ⟨.right, 1, 0, none⟩, ⟨.loopEnd, 6, 0, none⟩, ⟨.left, 1, 0, none⟩,
        ⟨.loopStart, 7, 0, none⟩, ⟨.read, 1, 0, none⟩, ⟨.loopEnd, 7, 0, none⟩] ∧
      code' = [⟨.store, 2, 0, none⟩, ⟨.guard, 2, 0, none⟩, ⟨.div, 2, 0, none⟩,
        ⟨.mul, 1, 1, none⟩, ⟨.label, 2, 0, none⟩, ⟨.mul, -1, 0, none⟩, ⟨.right, 1, 0, none⟩,
        ⟨.scanRight, 0, 0, none⟩, ⟨.right, 1, 0, none⟩, ⟨.printRun, 0, 0, none⟩,
        ⟨.left, 1, 0, none⟩, ⟨.loopStart, 7, 0, none⟩, ⟨.read, 1, 0, none⟩,
        ⟨.loopEnd, 7, 0, none⟩] ∧
      n = ⟨1, 1, 1, 1, 1, 1, 1, 1⟩ ∧ (∀ i ∈ code, i.opcode.symbol? ≠ none) ∧
      flattenWithStats .c code = .ok (code', n) ∧
      deadLoops false code = [[⟨.loopStart, 3, 0, none⟩, ⟨.loopStart, 4, 0, none⟩,
        ⟨.loopEnd, 4, 0, none⟩, ⟨.loopEnd, 3, 0, none⟩]] ∧
      Accounted .c code code' n := by
  refine ⟨_, _, _, rfl, rfl, rfl, by decide, ?_, ?_, statistics_exact (by decide) ?_⟩
  · cbv
  · cbv
  · cbv

end Stream
end TapeCompiler
