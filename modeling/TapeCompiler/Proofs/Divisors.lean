/-
TapeCompiler.Proofs.Divisors — what an optimized stream divides by.

A loop whose counter goes down by more than one per round becomes products
behind a division, and the divisor is the sum of the steps that lower the
counter. After merging all steps have positive counts, so the divisor is
positive, and no greater than the counts of the whole stream
(`Stream.dividesWithin_of_optimize`). A machine that divides words can
divide by it.
-/
import TapeCompiler.Proofs.Compilation
import TapeCompiler.Proofs.FlattenExact
import TapeCompiler.Proofs.MergeFixpoint

namespace TapeCompiler

/-! ## 1. The drop of a counter -/

/-- With positive counts, a body lowers its counter by no more than it counts. -/
theorem counterDrop_bounds {body : List Instruction} (hup : Stream.Upwards body)
    {pointer drop result : Int} (h : counterDrop? pointer drop body = .ok (some result)) :
    drop ≤ result ∧ result ≤ drop + Stream.counts body := by
  induction body generalizing pointer drop with
  | nil =>
    cases h
    simp
  | cons i rest ih =>
    have hrest : Stream.Upwards rest := fun j hj => hup j (List.mem_cons_of_mem _ hj)
    -- where the drop does not change
    have hsame {pointer : Int} (h : counterDrop? pointer drop rest = .ok (some result)) :
        drop ≤ result ∧ result ≤ drop + Stream.counts (i :: rest) := by
      have hbounds := ih hrest h
      rw [Stream.counts_cons]
      omega
    unfold counterDrop? at h
    split at h
    · rename_i hop
      exact hsame (pointer_of_displacement (.inl hop) h).2.2
    · rename_i hop
      exact hsame (pointer_of_displacement (.inr hop) h).2.2
    · split at h
      · cases h
      · exact hsame h
    · rename_i hop
      split at h
      · obtain ⟨next, hnext, h⟩ := bind_eq_ok_iff.1 h
        obtain ⟨-, rfl⟩ := Operand.checked_eq_ok_iff.1 hnext
        have hpos := hup i (List.mem_cons_self ..) (by simp [hop, Opcode.opposite?])
        have htally := Instruction.IsCellStep.tally_eq (.inr hop)
        have hbounds := ih hrest h
        rw [Stream.counts_cons]
        omega
      · exact hsame h
    · exact hsame h

/-! ## 2. Through the passes -/

namespace Instruction

/-- If the instruction divides, then by a positive number up to a bound. -/
def DividesWithin (bound : Nat) (i : Instruction) : Prop :=
  i.opcode = .div → 0 < i.value ∧ i.value ≤ bound

theorem dividesWithin_of_ne {bound : Nat} {i : Instruction} (h : i.opcode ≠ .div) :
    i.DividesWithin bound :=
  fun hop => absurd hop h

end Instruction

/-- Neither a clear nor what it undoes is a division. -/
theorem Mode.dividesWithin_pending (m : Mode) (bound : Nat) :
    ∀ i ∈ m.pending, i.DividesWithin bound := by
  intro i hi
  refine Instruction.dividesWithin_of_ne fun hop => ?_
  cases m with
  | plain | zero => cases hi
  | held j undone =>
    rw [pending, List.mem_singleton] at hi
    simp [← hi, Flattener.overwritten, hop] at undone
  | owing start =>
    rw [pending, List.mem_singleton] at hi
    simp [hi, Instruction.clearing] at hop

/-- The one division in front of the products is by the drop. -/
theorem Flattener.dividesWithin_guarded {start close : Instruction} {drop : Int}
    {body terms : List Instruction} {bound : Nat} (hpos : 0 < drop) (hle : drop ≤ bound)
    (hterms : products 0 [] body = .ok terms) :
    ∀ i ∈ guarded start drop terms close, i.DividesWithin bound := by
  intro i hi hop
  simp only [guarded, List.cons_append, List.mem_cons, List.mem_append, List.not_mem_nil,
    or_false] at hi
  rcases hi with rfl | (hi | hi) | rfl
  · cases hop
  · split at hi
    · cases hi
    · rw [List.mem_singleton.1 hi]
      exact ⟨hpos, hle⟩
  · obtain ⟨_, -, -, rfl⟩ := mem_products hterms hi
    cases hop
  · cases hop

/-- A stream with positive counts, which together stay within a bound, and so
do its divisors. -/
structure Stream.CountsWithin (bound : Nat) (code : List Instruction) : Prop where
  upwards : Stream.Upwards code
  divisors : ∀ i ∈ code, i.DividesWithin bound
  counts : Stream.counts code ≤ bound

namespace Stream.CountsWithin

variable {bound : Nat} {code code' : List Instruction} {i : Instruction}

/-- Parts of the stream count no more than the whole. -/
theorem left (h : CountsWithin bound (code ++ code')) : CountsWithin bound code := by
  have hcounts := h.counts
  rw [counts_append] at hcounts
  exact ⟨fun i hi => h.upwards i (List.mem_append_left _ hi),
    fun i hi => h.divisors i (List.mem_append_left _ hi), by omega⟩

theorem right (h : CountsWithin bound (code ++ code')) : CountsWithin bound code' := by
  have hcounts := h.counts
  rw [counts_append] at hcounts
  exact ⟨fun i hi => h.upwards i (List.mem_append_right _ hi),
    fun i hi => h.divisors i (List.mem_append_right _ hi), by omega⟩

theorem head (h : CountsWithin bound (i :: code)) : i.DividesWithin bound :=
  h.divisors i (List.mem_cons_self ..)

theorem tail (h : CountsWithin bound (i :: code)) : CountsWithin bound code := by
  have happend : CountsWithin bound ([i] ++ code) := h
  exact happend.right

end Stream.CountsWithin

namespace LoopTree

variable {target : Target} {m : Mode} {t u : LoopTree} {n : LoopStats} {bound : Nat}

/-- Flattening divides by the drops of counters only. -/
theorem Becomes.dividesWithin (h : Becomes target m t u n) (ht : Stream.CountsWithin bound t.code) :
    ∀ i ∈ u.code, i.DividesWithin bound := by
  have hsettle {m : Mode} {v : LoopTree} (hv : ∀ i ∈ v.code, i.DividesWithin bound) :
      ∀ i ∈ (m.settle v).code, i.DividesWithin bound := by
    rw [Mode.code_settle, List.forall_mem_append]
    exact ⟨m.dividesWithin_pending bound, hv⟩
  induction h with
  | done => exact hsettle (by simp)
  | fold _ _ ih => exact ih ht.tail
  | hold _ _ _ ih => exact hsettle (ih ht.tail)
  | pass _ _ ih =>
    refine hsettle ?_
    rw [code_step, List.forall_mem_cons]
    exact ⟨ht.head, ih ht.tail⟩
  | dead _ _ ih => exact hsettle (ih ht.tail.right.tail)
  | keep _ _ _ _ ihb ihr =>
    refine hsettle ?_
    simp only [code_loop, List.forall_mem_cons, List.forall_mem_append]
    exact ⟨ht.head, ihb ht.tail.left, ht.tail.right.head, ihr ht.tail.right.tail⟩
  | pattern _ verdict _ _ ih =>
    refine hsettle ?_
    rw [code_step, List.forall_mem_cons]
    refine ⟨Instruction.dividesWithin_of_ne ?_, ih ht.tail.right.tail⟩
    rcases opcode_of_pattern (Verdict.patternOpcode_of_ofLoop verdict) with rfl | rfl | rfl <;> simp
  | clear _ _ _ ih => exact ih ht.tail.right.tail
  | multiply _ verdict _ _ ih =>
    have hbody := ht.tail.left
    have hmultiplies := Verdict.multiplies_of_ofLoop verdict
    have hbounds := counterDrop_bounds hbody.upwards hmultiplies.drops
    have hcounts := hbody.counts
    have hne := hmultiplies.nonzero
    refine hsettle ?_
    rw [code_prepend, List.forall_mem_append]
    exact ⟨Flattener.dividesWithin_guarded (by omega) (by omega) hmultiplies.terms,
      ih ht.tail.right.tail⟩

end LoopTree

namespace Stream

variable {target : Target} {bound : Nat}

/-- The same for streams with closing brackets that close nothing. -/
theorem Becomes.dividesWithin {m : Mode} {code code' : List Instruction} {n : LoopStats}
    (h : Becomes target m code code' n) (hcode : CountsWithin bound code) :
    ∀ i ∈ code', i.DividesWithin bound := by
  induction h with
  | last h => exact h.dividesWithin hcode
  | next h _ _ ih =>
    rw [List.forall_mem_append, List.forall_mem_cons]
    exact ⟨h.dividesWithin hcode.left, hcode.right.head, ih hcode.right.tail⟩

/-- A source has no divisions at all. -/
theorem dividesWithin_of_basic {code : List Instruction} (h : ∀ i ∈ code, i.Basic) :
    ∀ i ∈ code, i.DividesWithin bound := by
  intro i hi
  refine Instruction.dividesWithin_of_ne fun hop => (h i hi).1 ?_
  rw [hop]
  rfl

/-- Divisors of an optimized stream are positive, and no greater than the
counts that merging left. -/
theorem dividesWithin_merged {t : Tree} {optimized : Optimized} (hbasic : ∀ i ∈ t.code, i.Basic)
    (h : optimize target t.code = .ok optimized) :
    ∀ i ∈ optimized.code, i.DividesWithin (counts optimized.merged) := by
  obtain ⟨merged, hmerge, h⟩ := bind_eq_ok_iff.1 h
  rw [FlattenError.ofOverflow_eq_ok_iff] at hmerge
  have hmerged (bound : Nat) : ∀ i ∈ merged, i.DividesWithin bound := by
    obtain ⟨t', hrewrites, rfl⟩ := rewrites_of_mergeAll hmerge
    exact dividesWithin_of_basic (hrewrites.basic hbasic)
  split at h
  · obtain ⟨⟨code, stats⟩, hflatten, h⟩ := bind_eq_ok_iff.1 h
    cases h
    exact (flattenWithStats_eq_ok_iff.1 hflatten).dividesWithin
      ⟨(merged_of_mergeAll hmerge).upwards, hmerged _, Nat.le_refl _⟩
  · cases h
    exact hmerged _

/-- **Divisors of an optimized stream** are positive, and no greater than all
counts together. -/
theorem dividesWithin_of_optimize {t : Tree} {optimized : Optimized}
    (hbasic : ∀ i ∈ t.code, i.Basic) (hcounts : counts t.code < 2 ^ 63)
    (h : optimize target t.code = .ok optimized) :
    ∀ i ∈ optimized.code, i.DividesWithin (counts t.code) := by
  have hle : counts optimized.merged ≤ counts t.code := by
    obtain ⟨merged, hmerge, hrest⟩ := bind_eq_ok_iff.1 h
    have hle := counts_le_of_mergeAll hcounts (FlattenError.ofOverflow_eq_ok_iff.1 hmerge)
    split at hrest
    · obtain ⟨flattened, -, hrest⟩ := bind_eq_ok_iff.1 hrest
      cases hrest
      exact hle
    · cases hrest
      exact hle
  intro i hi hop
  obtain ⟨hpos, hbound⟩ := dividesWithin_merged hbasic h i hi hop
  exact ⟨hpos, Int.le_trans hbound (by exact_mod_cast hle)⟩

end Stream

end TapeCompiler
