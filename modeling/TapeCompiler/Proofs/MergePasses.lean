/-
TapeCompiler.Proofs.MergePasses — how many passes a stream can take.

A pass that meets no two opposite steps joins all that can be joined, and
leaves nothing for the next one. So a pass that is followed by one that
shrinks the stream again has cancelled a step by an opposite one, and with
positive counts that takes two off the counts of the stream
(`Stream.merged_or_counts_of_merge`).

The tally of the passes can count `2 ^ 31 - 1` of them. If it overflows, then
the stream counts at least `2 ^ 32` in all
(`Stream.counts_of_mergeAll_eq_error`). No bound is better: the stream of
`Stream.mergeAll_overflows` counts no more than that.
-/
import TapeCompiler.Proofs.MergeFixpoint

namespace TapeCompiler

/-! ## 1. Counts of reads and writes -/

namespace Stream

/-- Every count is in range, and those of reads and writes are positive. -/
def Fits (code : List Instruction) : Prop :=
  ∀ i ∈ code, i.opcode.isCounted = true →
    Operand.InRange i.value ∧ (i.opcode.opposite? = none → 0 < i.value)

theorem fits_append {code code' : List Instruction} :
    Fits (code ++ code') ↔ Fits code ∧ Fits code' :=
  List.forall_mem_append

theorem fits_singleton {i : Instruction} :
    Fits [i] ↔ (i.opcode.isCounted = true →
      Operand.InRange i.value ∧ (i.opcode.opposite? = none → 0 < i.value)) := by
  simp [Fits]

end Stream

theorem Run.fits_of_total {r : Run} {i? : Option Instruction} (hr : Stream.Fits [r.step])
    (h : r.total = .ok i?) : Stream.Fits i?.toList := by
  unfold total at h
  split at h
  · cases h
    exact hr
  rename_i op hop
  split at h
  · cases h
    exact hr
  split at h
  · rename_i hneg
    obtain ⟨count, hcount, h⟩ := bind_eq_ok_iff.1 h
    obtain ⟨hrange, rfl⟩ := Operand.checked_eq_ok_iff.1 hcount
    cases h
    exact Stream.fits_singleton.2 fun _ => ⟨hrange, fun _ => Int.neg_pos_of_neg hneg⟩
  · cases h
    intro i hi
    cases hi

namespace Merging

theorem fits_of_flush {m : Merging} {output : Array Instruction}
    (hm : Stream.Fits (m.output.toList ++ m.pending)) (h : m.flush = .ok output) :
    Stream.Fits output.toList := by
  obtain ⟨written, run⟩ := m
  cases run with
  | none =>
    cases h
    simpa [pending] using hm
  | some r =>
    obtain ⟨i?, htotal, h⟩ := bind_eq_ok_iff.1 h
    obtain ⟨hwritten, hr⟩ := Stream.fits_append.1 hm
    have hi := Run.fits_of_total (by simpa [pending] using hr) htotal
    cases i? with
    | none =>
      cases h
      exact hwritten
    | some i =>
      cases h
      simpa using Stream.fits_append.2 ⟨hwritten, hi⟩

theorem fits_start {output : Array Instruction} {i : Instruction}
    (houtput : Stream.Fits output.toList) (hi : Stream.Fits [i]) :
    Stream.Fits ((start output i).output.toList ++ (start output i).pending) := by
  unfold start
  split <;> simpa [pending, Run.step] using Stream.fits_append.2 ⟨houtput, hi⟩

/-- Sums that are too large are refused, so what is added up fits. -/
theorem fits_feed {m m' : Merging} {i : Instruction} (hm : m.Counted)
    (hfits : Stream.Fits (m.output.toList ++ m.pending)) (hi : Stream.Fits [i])
    (h : m.feed i = .ok m') : Stream.Fits (m'.output.toList ++ m'.pending) := by
  obtain ⟨written, run⟩ := m
  cases run with
  | none =>
    cases h
    exact fits_start (by simpa [pending] using hfits) hi
  | some r =>
    obtain ⟨hwritten, hr⟩ := Stream.fits_append.1 hfits
    have hcounted : r.first.opcode.isCounted = true := hm.run rfl
    obtain ⟨-, hpos⟩ := Stream.fits_singleton.1 hr hcounted
    simp only [feed] at h
    split at h
    · rename_i hsame
      obtain ⟨count, hadd, h⟩ := bind_eq_ok_iff.1 h
      obtain ⟨hrange, rfl⟩ := Operand.checked_eq_ok_iff.1 hadd
      obtain ⟨-, hpos'⟩ := Stream.fits_singleton.1 hi (hsame ▸ hcounted)
      cases h
      refine Stream.fits_append.2 ⟨hwritten, Stream.fits_singleton.2 fun _ => ⟨hrange, ?_⟩⟩
      intro hnone
      exact Int.add_pos (hpos hnone) (hpos' (hsame ▸ hnone))
    split at h
    · rename_i hopposite
      obtain ⟨count, hsub, h⟩ := bind_eq_ok_iff.1 h
      obtain ⟨hrange, rfl⟩ := Operand.checked_eq_ok_iff.1 hsub
      obtain ⟨output, hflush, h⟩ := bind_eq_ok_iff.1 h
      cases h
      have hrun : Stream.Fits [Run.step ⟨r.first, r.count - i.value⟩] := by
        refine Stream.fits_singleton.2 fun _ => ⟨hrange, fun hnone => ?_⟩
        cases hnone.symm.trans hopposite
      simpa [pending] using fits_of_flush
        (m := ⟨written, some ⟨r.first, r.count - i.value⟩⟩)
        (Stream.fits_append.2 ⟨hwritten, hrun⟩) hflush
    · obtain ⟨output, hflush, h⟩ := bind_eq_ok_iff.1 h
      cases h
      exact fits_start (fits_of_flush hfits hflush) hi

theorem fits_foldlM {code : List Instruction} {m m' : Merging} (hm : m.Counted)
    (hfits : Stream.Fits (m.output.toList ++ m.pending)) (hcode : Stream.Fits code)
    (h : code.foldlM feed m = .ok m') : Stream.Fits (m'.output.toList ++ m'.pending) := by
  induction code generalizing m with
  | nil =>
    cases h
    exact hfits
  | cons i code ih =>
    obtain ⟨m₁, hfeed, h⟩ := bind_eq_ok_iff.1 h
    obtain ⟨hi, hcode⟩ := Stream.fits_append.1 (show Stream.Fits ([i] ++ code) from hcode)
    exact ih (hm.feed hfeed) (fits_feed hm hfits hi hfeed) hcode h

end Merging

namespace Stream

variable {code code' : List Instruction}

theorem fits_of_merge (hcode : Fits code) (h : merge code = .ok code') : Fits code' := by
  obtain ⟨m, hfold, h⟩ := bind_eq_ok_iff.1 h
  obtain ⟨output, hflush, h⟩ := bind_eq_ok_iff.1 h
  cases h
  have hempty : Fits (([] : List Instruction) ++ []) := by simp [Fits]
  exact Merging.fits_of_flush (Merging.fits_foldlM (.of_none _) hempty hcode hfold) hflush

theorem fits_of_mergeOn {passes : Nat} (hcode : Fits code)
    (h : mergeOn passes code = .ok code') : Fits code' := by
  fun_induction mergeOn passes code with
  | case1 => cases h
  | case2 => cases h
  | case3 passes code next hmerge _ _ _ ih => exact ih (fits_of_merge hcode hmerge) h
  | case4 passes code next hmerge hlength =>
    cases h
    exact hcode

theorem fits_of_mergeAll (hcode : Fits code) (h : mergeAll code = .ok code') : Fits code' := by
  obtain ⟨next, hmerge, h⟩ := bind_eq_ok_iff.1 h
  exact fits_of_mergeOn (fits_of_merge hcode hmerge) h

/-- With reads and writes that fit, a stream that counts its steps upwards
has positive counts only. -/
theorem value_pos (hcode : Upwards code) (hfits : Fits code) {i : Instruction} (hi : i ∈ code)
    (hcounted : i.opcode.isCounted = true) : 0 < i.value := by
  by_cases hnone : i.opcode.opposite? = none
  · exact (hfits i hi hcounted).2 hnone
  · exact hcode i hi hnone

end Stream

/-! ## 2. A pass that cancels nothing -/

/-- Only opcodes decide what merges. -/
theorem Instruction.isChain_iff_of_opcodes {code code' : List Instruction}
    (h : code.map Instruction.opcode = code'.map Instruction.opcode) :
    code.IsChain (fun i j => ¬ i.Merges j) ↔ code'.IsChain (fun i j => ¬ i.Merges j) := by
  let Apart (op op' : Opcode) : Prop :=
    ¬ (op.isCounted = true ∧ op' = op ∨ op.opposite? = some op')
  have hopcodes (code : List Instruction) :
      (code.map Instruction.opcode).IsChain Apart ↔ code.IsChain (fun i j => ¬ i.Merges j) :=
    List.isChain_map Instruction.opcode
  rw [← hopcodes, ← hopcodes, h]

namespace Merging

/-- Nothing is left to merge in what the pass has so far, nor with an
instruction that does not merge with the run under way. -/
structure Tidy (m : Merging) : Prop where
  upwards : Stream.Upwards (m.output.toList ++ m.pending)
  apart : ∀ i, (∀ j ∈ m.pending, ¬ j.Merges i) →
    (m.output.toList ++ m.pending ++ [i]).IsChain (fun i j => ¬ i.Merges j)

variable {m m' : Merging} {i : Instruction}

theorem Tidy.upwards_pending (h : m.Tidy) : Stream.Upwards m.pending :=
  fun i hi => h.upwards i (List.mem_append_right _ hi)

/-- What is written at the end of a tidy pass is merged. -/
theorem Tidy.merged_of_flush (h : m.Tidy) {output : Array Instruction}
    (hflush : m.flush = .ok output) : Stream.Merged output.toList := by
  rw [flush_of_upwards h.upwards_pending] at hflush
  cases hflush
  -- a label merges with nothing, so it can stand for what comes behind
  have hend := h.apart ⟨.label, 0, 0, none⟩ fun j _ hmerges => absurd hmerges.counted.2 (by decide)
  exact ⟨by simpa using h.upwards, by simpa using hend.left_of_append⟩

theorem tidy_start {output : Array Instruction} (houtput : Stream.Upwards output.toList)
    (hi : i.opcode.opposite? ≠ none → 0 < i.value)
    (hchain : (output.toList ++ [i]).IsChain (fun i j => ¬ i.Merges j)) :
    (start output i).Tidy := by
  have hupwards := houtput.append (Stream.upwards_singleton hi)
  -- the new instruction is the last one, as the run or as part of the output
  have hnext (j : Instruction) (hj : ¬ i.Merges j) :
      (output.toList ++ [i] ++ [j]).IsChain (fun i j => ¬ i.Merges j) := by
    rw [List.append_assoc]
    exact List.isChain_split.2 ⟨hchain, List.isChain_pair.2 hj⟩
  by_cases hcounted : i.opcode.isCounted = true
  · have hstart : start output i = ⟨output, some ⟨i, i.value⟩⟩ := by simp [start, hcounted]
    rw [hstart]
    exact ⟨by simpa [pending, Run.step] using hupwards,
      fun j hj => by simpa [pending, Run.step] using hnext j (hj i (by simp [pending, Run.step]))⟩
  · have hstart : start output i = ⟨output.push i, none⟩ := by simp [start, hcounted]
    rw [hstart]
    exact ⟨by simpa [pending] using hupwards,
      fun j _ => by simpa [pending] using hnext j fun hmerges => hcounted hmerges.counted.1⟩

/-- **One more instruction** is joined to what is there or put behind it, or it
cancels, and takes two off the counts. -/
theorem tidy_feed (hm : m.Counted) (htidy : m.Tidy)
    (hi : i.opcode.opposite? ≠ none → 0 < i.value) (hfits : m.counts + i.tally < 2 ^ 63)
    (h : m.feed i = .ok m') : m'.Tidy ∨ m'.counts + 2 ≤ m.counts + i.tally := by
  by_cases hmerges : ∀ j ∈ m.pending, ¬ j.Merges i
  · rw [feed_of_not_merges hm hmerges, flush_of_upwards htidy.upwards_pending] at h
    cases h
    refine .inl (tidy_start ?_ hi ?_)
    · simpa using htidy.upwards
    · simpa using htidy.apart i hmerges
  obtain ⟨written, run⟩ := m
  cases run with
  | none => exact absurd (by simp [pending]) hmerges
  | some r =>
    have hfirst : r.first.opcode.isCounted = true := hm.run rfl
    have hr : r.first.opcode.opposite? ≠ none → 0 < r.count :=
      htidy.upwards r.step (by simp [pending])
    obtain ⟨j, hj, hji⟩ : ∃ j ∈ pending ⟨written, some r⟩, j.Merges i := by simpa using hmerges
    obtain rfl := List.mem_singleton.1 hj
    rcases hji with ⟨-, (hsame : i.opcode = r.first.opcode)⟩ |
      (hopposite : r.first.opcode.opposite? = some i.opcode)
    · simp only [feed, if_pos hsame] at h
      obtain ⟨count, hadd, h⟩ := bind_eq_ok_iff.1 h
      obtain ⟨-, rfl⟩ := Operand.checked_eq_ok_iff.1 hadd
      cases h
      refine .inl ⟨?_, fun k hk => ?_⟩
      · refine Stream.Upwards.append (fun k hk => htidy.upwards k (List.mem_append_left _ hk)) ?_
        refine Stream.upwards_singleton fun hstep => ?_
        exact Int.add_pos (hr hstep) (hi (hsame ▸ hstep))
      · refine (Instruction.isChain_iff_of_opcodes ?_).1 (htidy.apart k ?_)
        · simp [pending, Run.step]
        · simpa [pending, Run.step, Instruction.Merges] using hk
    · simp only [feed, if_neg (Opcode.opposite?_ne hopposite), if_pos hopposite] at h
      obtain ⟨count, hsub, h⟩ := bind_eq_ok_iff.1 h
      obtain ⟨-, rfl⟩ := Operand.checked_eq_ok_iff.1 hsub
      obtain ⟨output, hflush, h⟩ := bind_eq_ok_iff.1 h
      cases h
      have hcount : 0 < r.count := hr (by simp [hopposite])
      have hvalue : 0 < i.value := hi (by simp [Opcode.opposite?_symm hopposite])
      have hbefore := counts_of_run written hfirst
      have hafter := counts_of_run written (r := ⟨r.first, r.count - i.value⟩) hfirst
      rw [Instruction.tally_of_counted (Opcode.isCounted_of_opposite hopposite)] at hfits ⊢
      obtain ⟨output', hflush', hle⟩ := exists_flush
        (m := ⟨written, some ⟨r.first, r.count - i.value⟩⟩) (.of_run hfirst)
        (by simp only at hafter; omega)
      obtain rfl := Except.ok.inj (hflush.symm.trans hflush')
      simp only at hafter
      refine .inr ?_
      rw [counts_of_none]
      omega

theorem tidy_foldlM {code : List Instruction} (hm : m.Counted) (htidy : m.Tidy)
    (hcode : Stream.Upwards code) (hfits : m.counts + Stream.counts code < 2 ^ 63)
    (h : code.foldlM feed m = .ok m') :
    m'.Tidy ∨ m'.counts + 2 ≤ m.counts + Stream.counts code := by
  induction code generalizing m with
  | nil =>
    cases h
    exact .inl htidy
  | cons i code ih =>
    rw [Stream.counts_cons] at hfits ⊢
    obtain ⟨hi, hcode⟩ := List.forall_mem_cons.1 hcode
    obtain ⟨m₁, hfeed, h⟩ := bind_eq_ok_iff.1 h
    obtain ⟨m₁', hfeed', hle⟩ := exists_feed (i := i) hm (by omega)
    obtain rfl := Except.ok.inj (hfeed.symm.trans hfeed')
    rcases tidy_feed hm htidy hi (by omega) hfeed with htidy₁ | hless
    · exact (ih (hm.feed hfeed) htidy₁ hcode (by omega) h).imp_right (by omega)
    · -- what was cancelled once does not come back
      obtain ⟨m₂, hfold, hle'⟩ := exists_foldlM code (hm.feed hfeed) (by omega)
      obtain rfl := Except.ok.inj (h.symm.trans hfold)
      exact .inr (by omega)

end Merging

namespace Stream

variable {code next : List Instruction} {passes : Nat}

/-- **A pass merges all there is to merge, or it cancels**, and takes two off
the counts. -/
theorem merged_or_counts_of_merge (hcode : Upwards code) (hfits : counts code < 2 ^ 63)
    (h : merge code = .ok next) : Merged next ∨ counts next + 2 ≤ counts code := by
  obtain ⟨m, hfold, h⟩ := bind_eq_ok_iff.1 h
  obtain ⟨output, hflush, h⟩ := bind_eq_ok_iff.1 h
  cases h
  have hempty : ({} : Merging).counts = 0 := rfl
  have hnone : ({} : Merging).Counted := .of_none _
  have htidy : ({} : Merging).Tidy :=
    ⟨by simp [Upwards, Merging.pending], fun i _ => List.isChain_singleton i⟩
  rcases Merging.tidy_foldlM hnone htidy hcode (by omega) hfold with htidy' | hless
  · exact .inl (htidy'.merged_of_flush hflush)
  · obtain ⟨output', hflush', hle⟩ := Merging.exists_flush (hnone.foldlM hfold) (by omega)
    obtain rfl := Except.ok.inj (hflush.symm.trans hflush')
    exact .inr (by omega)

/-! ## 3. How many passes there are -/

/-- Two neighbours that can be merged count one each. -/
theorem two_le_counts (hpos : ∀ i ∈ code, i.opcode.isCounted = true → 0 < i.value)
    (h : ¬ code.IsChain (fun i j => ¬ i.Merges j)) : 2 ≤ counts code := by
  induction code with
  | nil => exact absurd .nil h
  | cons i code ih =>
    rw [List.forall_mem_cons] at hpos
    by_cases hrest : code.IsChain (fun i j => ¬ i.Merges j)
    · obtain ⟨j, hj, hmerges⟩ : ∃ j ∈ code.head?, i.Merges j := by
        simpa [List.isChain_cons, hrest] using h
      obtain ⟨rest, rfl⟩ : ∃ rest, code = j :: rest := List.head?_eq_some_iff.1 hj
      obtain ⟨hi, hj⟩ := hmerges.counted
      have hivalue := hpos.1 hi
      have hjvalue := hpos.2 j (List.mem_cons_self ..) hj
      rw [counts_cons, counts_cons, Instruction.tally_of_counted hi,
        Instruction.tally_of_counted hj]
      omega
    · have hle := ih hpos.2 hrest
      rw [counts_cons]
      omega

/-- Where a pass would still shrink the stream, there is something to merge. -/
theorem not_merged_of_mergeOn_eq_error {e : Overflow} (h : mergeOn passes code = .error e) :
    ¬ Merged code := by
  intro hmerged
  rw [mergeOn_of_merged hmerged] at h
  cases h

/-- With every pass but the last, two are taken off the counts. -/
theorem counts_of_mergeOn_eq_error (hcode : Upwards code) (hread : Fits code)
    (hfits : counts code < 2 ^ 63) {e : Overflow} (h : mergeOn passes code = .error e) :
    2 * (Tally.greatest - passes) + 2 ≤ counts code := by
  fun_induction mergeOn passes code with
  | case1 passes code e' hmerge =>
    obtain ⟨next, hnext, -⟩ := exists_merge_of_counts hfits
    cases hmerge.symm.trans hnext
  | case2 passes code next hmerge hshorter e' htally =>
    obtain ⟨hfull, -⟩ := Tally.next_eq_error_iff.1 htally
    have hle : 2 ≤ counts code := by
      refine two_le_counts (fun i hi => value_pos hcode hread hi) fun hapart => ?_
      rw [merge_of_merged ⟨hcode, hapart⟩] at hmerge
      cases hmerge
      exact absurd hshorter (Nat.lt_irrefl _)
    omega
  | case3 passes code next hmerge hshorter passes' htally ih =>
    obtain ⟨hroom, rfl⟩ := Tally.next_eq_ok_iff.1 htally
    have hless : counts next + 2 ≤ counts code :=
      (merged_or_counts_of_merge hcode hfits hmerge).resolve_left (not_merged_of_mergeOn_eq_error h)
    have hrest := ih (upwards_of_merge hmerge) (fits_of_merge hread hmerge) (by omega) h
    omega
  | case4 => cases h

/-- **Passes that are too many to be tallied** take a stream that counts
`2 ^ 32` in all. -/
theorem counts_of_mergeAll_eq_error (hcode : Upwards code) (hread : Fits code)
    (hfits : counts code < 2 ^ 63) {e : Overflow} (h : mergeAll code = .error e) :
    2 ^ 32 ≤ counts code := by
  obtain ⟨next, hmerge, -⟩ := exists_merge_of_counts hfits
  have hall : mergeAll code = mergeOn 1 next := by rw [mergeAll, hmerge]; rfl
  rw [hall] at h
  have hless : counts next + 2 ≤ counts code :=
    (merged_or_counts_of_merge hcode hfits hmerge).resolve_left (not_merged_of_mergeOn_eq_error h)
  have hrest := counts_of_mergeOn_eq_error (upwards_of_merge hmerge) (fits_of_merge hread hmerge)
    (by omega) h
  have hgreatest : Tally.greatest = 2 ^ 31 - 1 := rfl
  omega

end Stream

end TapeCompiler
