/-
TapeCompiler.Proofs.MergeFixpoint — merging to the end ends at a fixpoint.

The passes are repeated for as long as the stream shrinks, so all that the
last of them shows is that a stream kept its length. That this is enough is
shown in two steps.

* A pass makes the stream shorter with every instruction that it takes into
  a run and with every run that it drops. One that keeps the length has met
  no two neighbours that it could merge (`Merging.apart_of_foldlM`).
* What a pass has written counts its steps upwards (`Merging.upwards_foldlM`).
  Here the first pass matters, which is made in any case: a single step
  with a count below zero keeps its place, but becomes its opposite.

`Stream.Merged` says both of a stream without mention of the pass, and
`Stream.merge_eq_self_iff` says that the merged streams are the fixpoints.

How many passes it takes has no bound but the length: steps followed by the
way back from them lose one pair in each pass (`Stream.merge_thereAndBack`).
The tally of the passes has a bound, and these streams reach it.
-/
import TapeCompiler.Proofs.Merging
import Mathlib.Data.List.Chain

namespace TapeCompiler

/-! ## 1. Merged streams -/

/-- The two instructions, if they are neighbours, can be made one: both
count the same thing, in the same direction or in opposite ones. -/
def Instruction.Merges (i j : Instruction) : Prop :=
  i.opcode.isCounted = true ∧ j.opcode = i.opcode ∨ i.opcode.opposite? = some j.opcode

instance Instruction.decidableMerges (i j : Instruction) : Decidable (i.Merges j) :=
  inferInstanceAs (Decidable (_ ∨ _))

theorem Instruction.Merges.counted {i j : Instruction} (h : i.Merges j) :
    i.opcode.isCounted = true ∧ j.opcode.isCounted = true := by
  rcases h with ⟨hcounted, hsame⟩ | hopposite
  · exact ⟨hcounted, hsame ▸ hcounted⟩
  · refine ⟨?_, Opcode.isCounted_of_opposite hopposite⟩
    cases hi : i.opcode <;> simp [hi, Opcode.opposite?] at hopposite <;> rfl

namespace Stream

/-- Every step of the cell or of the pointer has a positive count. -/
def Upwards (code : List Instruction) : Prop :=
  ∀ i ∈ code, i.opcode.opposite? ≠ none → 0 < i.value

/-- Nothing is left to merge: steps have positive counts, and no two
neighbours can be made one. -/
structure Merged (code : List Instruction) : Prop where
  upwards : Upwards code
  apart : code.IsChain (fun i j => ¬ i.Merges j)

instance decidableUpwards (code : List Instruction) : Decidable (Upwards code) :=
  inferInstanceAs (Decidable (∀ i ∈ code, _))

instance decidableMerged (code : List Instruction) : Decidable (Merged code) :=
  decidable_of_iff (Upwards code ∧ code.IsChain (fun i j => ¬ i.Merges j))
    ⟨fun h => ⟨h.1, h.2⟩, fun h => ⟨h.upwards, h.apart⟩⟩

theorem Upwards.append {code code' : List Instruction} (h : Upwards code)
    (h' : Upwards code') : Upwards (code ++ code') := by
  intro i hi
  rcases List.mem_append.1 hi with hi | hi
  · exact h i hi
  · exact h' i hi

theorem upwards_singleton {i : Instruction} (h : i.opcode.opposite? ≠ none → 0 < i.value) :
    Upwards [i] := by
  intro j hj
  obtain rfl := List.mem_singleton.1 hj
  exact h

theorem upwards_of_not_counted {i : Instruction} (h : i.opcode.isCounted = false) :
    Upwards [i] := by
  refine upwards_singleton fun hstep => ?_
  cases hi : i.opcode <;> simp [hi, Opcode.opposite?, Opcode.isCounted] at hstep h

end Stream

/-! ## 2. What a pass writes counts upwards -/

/-- A run that went down is turned, and one that came to nothing is dropped. -/
theorem Run.upwards_of_total {r : Run} {i? : Option Instruction} (h : r.total = .ok i?) :
    Stream.Upwards i?.toList := by
  unfold total at h
  split at h
  · rename_i hnone
    cases h
    exact Stream.upwards_singleton fun hstep => absurd hnone hstep
  split at h
  · rename_i hpos
    cases h
    exact Stream.upwards_singleton fun _ => hpos
  split at h
  · rename_i hneg
    obtain ⟨count, hcount, h⟩ := bind_eq_ok_iff.1 h
    obtain ⟨-, rfl⟩ := Operand.checked_eq_ok_iff.1 hcount
    cases h
    exact Stream.upwards_singleton fun _ => Int.neg_pos_of_neg hneg
  · cases h
    intro i hi
    cases hi

namespace Merging

/-- So the finished part counts upwards with the run as well. -/
theorem upwards_of_flush {m : Merging} {output : Array Instruction}
    (hm : Stream.Upwards m.output.toList) (h : m.flush = .ok output) :
    Stream.Upwards output.toList := by
  obtain ⟨written, run⟩ := m
  cases run with
  | none =>
    cases h
    exact hm
  | some r =>
    obtain ⟨i?, htotal, h⟩ := bind_eq_ok_iff.1 h
    have htotal := Run.upwards_of_total htotal
    cases i? with
    | none =>
      cases h
      exact hm
    | some i =>
      cases h
      simpa using hm.append htotal

/-- One more instruction leaves a finished part that counts upwards. -/
theorem upwards_feed {m m' : Merging} {i : Instruction}
    (hm : Stream.Upwards m.output.toList) (h : m.feed i = .ok m') :
    Stream.Upwards m'.output.toList := by
  rcases feed_cases h with ⟨output, hflush, rfl⟩ | ⟨r, -, -, -, rfl⟩ |
    ⟨r, output, -, -, hflush, rfl⟩
  · have houtput := upwards_of_flush hm hflush
    unfold start
    split
    · exact houtput
    · rename_i hi
      simpa using houtput.append (Stream.upwards_of_not_counted (by simpa using hi))
  · exact hm
  · exact upwards_of_flush (m := { m with run := some _ }) hm hflush

theorem upwards_foldlM {code : List Instruction} {m m' : Merging}
    (hm : Stream.Upwards m.output.toList) (h : code.foldlM feed m = .ok m') :
    Stream.Upwards m'.output.toList := by
  induction code generalizing m with
  | nil =>
    cases h
    exact hm
  | cons i code ih =>
    obtain ⟨m₁, hfeed, h⟩ := bind_eq_ok_iff.1 h
    exact ih (upwards_feed hm hfeed) h

end Merging

/-- **After one pass all steps count upwards.** -/
theorem Stream.upwards_of_merge {code code' : List Instruction} (h : merge code = .ok code') :
    Upwards code' := by
  obtain ⟨m, hfold, h⟩ := bind_eq_ok_iff.1 h
  obtain ⟨output, hflush, h⟩ := bind_eq_ok_iff.1 h
  cases h
  have hm : Upwards m.output.toList := Merging.upwards_foldlM (by simp [Upwards]) hfold
  exact Merging.upwards_of_flush hm hflush

/-! ## 3. A pass that keeps the length has merged nothing -/

namespace Merging

/-- An instruction that does not merge with the run ends it; any other one
takes no room of its own. -/
theorem feed_cases_of_merges {m m' : Merging} {i : Instruction} (hm : m.Counted)
    (h : m.feed i = .ok m') :
    ((∀ j ∈ m.pending, ¬ j.Merges i) ∧ ∃ output, m.flush = .ok output ∧ m' = start output i) ∨
      m'.size ≤ m.size := by
  obtain ⟨written, run⟩ := m
  cases run with
  | none =>
    cases h
    exact .inl ⟨by simp [pending], written, rfl, rfl⟩
  | some r =>
    simp only [feed] at h
    split at h
    · obtain ⟨count, -, h⟩ := bind_eq_ok_iff.1 h
      cases h
      exact .inr (Nat.le_refl _)
    split at h
    · obtain ⟨count, -, h⟩ := bind_eq_ok_iff.1 h
      obtain ⟨output, hflush, h⟩ := bind_eq_ok_iff.1 h
      cases h
      exact .inr (size_of_flush (m := ⟨written, some ⟨r.first, count⟩⟩) hflush)
    · rename_i hdifferent hopposite
      obtain ⟨output, hflush, h⟩ := bind_eq_ok_iff.1 h
      cases h
      refine .inl ⟨fun j hj hmerges => ?_, output, hflush, rfl⟩
      obtain rfl := List.mem_singleton.1 hj
      rcases hmerges with ⟨-, hsame⟩ | hundoes
      · exact hdifferent hsame
      · exact hopposite hundoes

/-- **If the length stays the same, no two neighbours could be merged.** The
run under way counts as an instruction of the stream. -/
theorem apart_of_foldlM {code : List Instruction} {m m' : Merging} {output : Array Instruction}
    (hm : m.Counted) (h : code.foldlM feed m = .ok m') (hflush : m'.flush = .ok output)
    (hlength : output.size = m.size + code.length) :
    (m.pending ++ code).IsChain (fun i j => ¬ i.Merges j) := by
  induction code generalizing m with
  | nil =>
    obtain ⟨written, run⟩ := m
    cases run <;> simp [pending]
  | cons i code ih =>
    obtain ⟨m₁, hfeed, h⟩ := bind_eq_ok_iff.1 h
    have hle := size_foldlM h hflush
    rw [List.length_cons] at hlength
    rcases feed_cases_of_merges hm hfeed with ⟨hpending, output₁, hflush₁, rfl⟩ | hsize
    · have hsize₁ := size_of_flush hflush₁
      have hstart := size_start output₁ i
      have hrest := ih (hm.feed hfeed) h (by omega)
      have hcons : (i :: code).IsChain (fun i j => ¬ i.Merges j) := by
        by_cases hi : i.opcode.isCounted = true
        · simpa [start, hi, pending, Run.step] using hrest
        · -- An instruction that is not counted merges with nothing.
          refine List.isChain_cons.2 ⟨fun j _ hmerges => hi hmerges.counted.1, ?_⟩
          simpa [start, hi, pending] using hrest
      obtain ⟨written, run⟩ := m
      cases run with
      | none => simpa [pending] using hcons
      | some r =>
        refine List.isChain_cons_cons.2 ⟨hpending r.step ?_, hcons⟩
        simp [pending]
    · omega

end Merging

/-- A pass that takes nothing away has found no neighbours to merge. -/
theorem Stream.apart_of_merge {code code' : List Instruction} (h : merge code = .ok code')
    (hlength : code'.length = code.length) : code.IsChain (fun i j => ¬ i.Merges j) := by
  obtain ⟨m, hfold, h⟩ := bind_eq_ok_iff.1 h
  obtain ⟨output, hflush, h⟩ := bind_eq_ok_iff.1 h
  cases h
  simpa [Merging.pending] using Merging.apart_of_foldlM (.of_none _) hfold hflush
    (by simpa [Merging.size, Merging.pending] using hlength)

/-! ## 4. A pass over a merged stream changes nothing

The same holds if each instruction is spelled out, as a row of instructions
that the pass takes together again. So what a row comes to is asked first. -/

namespace Merging

/-- A run that counts upwards is written as it is. -/
theorem flush_of_upwards {m : Merging} (h : Stream.Upwards m.pending) :
    m.flush = .ok (m.output ++ m.pending.toArray) := by
  obtain ⟨written, run⟩ := m
  cases run with
  | none => simp [flush, pending]
  | some r =>
    have htotal : r.total = .ok (some r.step) := by
      have hpos : r.first.opcode.opposite? ≠ none → 0 < r.count := h r.step (by simp [pending])
      unfold Run.total
      split
      · rfl
      · rename_i op hop
        rw [if_pos (hpos (by simp [hop]))]
        rfl
    simp [flush, pending, htotal, bind, Except.bind, pure, Except.pure]

/-- What does not merge with the run ends it. -/
theorem feed_of_not_merges {m : Merging} {i : Instruction} (hm : m.Counted)
    (h : ∀ j ∈ m.pending, ¬ j.Merges i) :
    m.feed i = (m.flush >>= fun output => .ok (start output i)) := by
  obtain ⟨written, run⟩ := m
  cases run with
  | none => rfl
  | some r =>
    have hr : ¬ r.step.Merges i := h r.step (by simp [pending])
    have hcounted : r.first.opcode.isCounted = true := hm.run rfl
    have hdifferent : i.opcode ≠ r.first.opcode := fun hsame => hr (.inl ⟨hcounted, hsame⟩)
    have hopposite : r.first.opcode.opposite? ≠ some i.opcode := fun hundoes => hr (.inr hundoes)
    simp only [feed, if_neg hdifferent, if_neg hopposite]
    rfl

/-- Behind `output` the pass has instruction `i`, written already or as the
run under way. -/
structure Holds (m : Merging) (output : Array Instruction) (i : Instruction) : Prop where
  counted : m.Counted
  shown : m.pending = [i] ∧ m.output = output ∨ m.pending = [] ∧ m.output = output.push i

/-- An instruction that is taken in is held. -/
theorem holds_start (output : Array Instruction) (i : Instruction) :
    (start output i).Holds output i := by
  unfold start
  split
  · rename_i hi
    exact ⟨.of_run hi, .inl ⟨by simp [pending, Run.step], rfl⟩⟩
  · exact ⟨.of_none _, .inr ⟨rfl, rfl⟩⟩

end Merging

/-- A pass takes the row for `i`, if it comes from something that does not
merge with `i`. -/
def Stream.AmountsTo (row : List Instruction) (i : Instruction) : Prop :=
  ∀ m : Merging, m.Counted → Upwards m.pending → (∀ j ∈ m.pending, ¬ j.Merges i) →
    ∃ m', row.foldlM Merging.feed m = .ok m' ∧ m'.Holds (m.output ++ m.pending.toArray) i

/-- An instruction amounts to itself. -/
theorem Stream.amountsTo_self (i : Instruction) : AmountsTo [i] i := by
  intro m hm hupwards hlast
  refine ⟨_, ?_, Merging.holds_start (m.output ++ m.pending.toArray) i⟩
  rw [List.foldlM_cons, Merging.feed_of_not_merges hm hlast, Merging.flush_of_upwards hupwards]
  rfl

/-- What is merged already is written as it stands, however it is spelled. -/
theorem Merging.foldlM_rows {rows : Instruction → List Instruction} {code : List Instruction}
    (hrows : ∀ i ∈ code, Stream.AmountsTo (rows i) i) {m : Merging} (hm : m.Counted)
    (h : Stream.Merged (m.pending ++ code)) :
    ((code.flatMap rows).foldlM feed m >>= flush) =
      .ok (m.output ++ (m.pending ++ code).toArray) := by
  induction code generalizing m with
  | nil =>
    rw [List.append_nil] at h ⊢
    exact flush_of_upwards h.upwards
  | cons i code ih =>
    have hpending : Stream.Upwards m.pending := fun j hj => h.upwards j (by simp [hj])
    have hlast : ∀ j ∈ m.pending, ¬ j.Merges i := by
      obtain ⟨written, run⟩ := m
      cases run with
      | none => simp [pending]
      | some r =>
        have hchain : (r.step :: i :: code).IsChain (fun i j => ¬ i.Merges j) := h.apart
        simpa [pending] using (List.isChain_cons_cons.1 hchain).1
    obtain ⟨m', hrow, hm', hshown⟩ := hrows i (List.mem_cons_self ..) m hm hpending hlast
    have hrest : Stream.Merged (i :: code) :=
      ⟨fun j hj => h.upwards j (List.mem_append_right _ hj), h.apart.right_of_append⟩
    have hmerged : Stream.Merged (m'.pending ++ code) := by
      rcases hshown with ⟨hrun, -⟩ | ⟨hrun, -⟩
      · rw [hrun]
        exact hrest
      · rw [hrun]
        exact ⟨fun j hj => hrest.upwards j (List.mem_cons_of_mem _ hj), hrest.apart.tail⟩
    have hfold := ih (fun j hj => hrows j (List.mem_cons_of_mem _ hj)) hm' hmerged
    rw [List.flatMap_cons, List.foldlM_append, hrow]
    refine hfold.trans ?_
    rcases hshown with ⟨hrun, houtput⟩ | ⟨hrun, houtput⟩
    · simp [hrun, houtput]
    · simp [hrun, houtput]

namespace Stream

variable {code code' : List Instruction}

/-- A merged stream comes back from the rows that it is spelled with. -/
theorem merge_rows {rows : Instruction → List Instruction} (h : Merged code)
    (hrows : ∀ i ∈ code, AmountsTo (rows i) i) : merge (code.flatMap rows) = .ok code := by
  have hfold := Merging.foldlM_rows hrows (m := {}) (.of_none _) h
  obtain ⟨m, hm, hflush⟩ := bind_eq_ok_iff.1 hfold
  simp [merge, hm, hflush, bind, Except.bind, pure, Except.pure, Merging.pending]

theorem merge_of_merged (h : Merged code) : merge code = .ok code := by
  simpa using merge_rows h (fun i _ => amountsTo_self i)

/-- **The merged streams are the fixpoints of the pass.** -/
theorem merge_eq_self_iff : merge code = .ok code ↔ Merged code :=
  ⟨fun h => ⟨upwards_of_merge h, apart_of_merge h rfl⟩, merge_of_merged⟩

/-! ## 5. To the end -/

variable {passes : Nat}

/-- Passes that are repeated for as long as they shrink a stream end at a
merged one, if the stream counts upwards from the start. -/
theorem merged_of_mergeOn (hcode : Upwards code) (h : mergeOn passes code = .ok code') :
    Merged code' := by
  fun_induction mergeOn passes code with
  | case1 => cases h
  | case2 => cases h
  | case3 passes code next hmerge _ _ _ ih => exact ih (upwards_of_merge hmerge) h
  | case4 passes code next hmerge hlength =>
    cases h
    have hle := length_le_of_merge hmerge
    exact ⟨hcode, apart_of_merge hmerge (by omega)⟩

/-- The repetition ends at a merged stream. -/
theorem mergeOn_of_merged (h : Merged code) : mergeOn passes code = .ok code := by
  unfold mergeOn
  simp [merge_of_merged h]

/-- **What merging to the end gives is merged.** One pass is made in any case,
and it leaves all steps upwards. -/
theorem merged_of_mergeAll (h : mergeAll code = .ok code') : Merged code' := by
  obtain ⟨next, hmerge, h⟩ := bind_eq_ok_iff.1 h
  exact merged_of_mergeOn (upwards_of_merge hmerge) h

/-- The stream after `n` passes, whether they shrink it or not. -/
def mergeTimes : Nat → List Instruction → Except Overflow (List Instruction)
  | 0, code => .ok code
  | n + 1, code => do
    let next ← merge code
    mergeTimes n next

/-- More passes change a merged stream no further. -/
theorem mergeTimes_of_merged (h : Merged code) (n : Nat) : mergeTimes n code = .ok code := by
  induction n with
  | zero => rfl
  | succ n ih => exact bind_eq_ok_iff.2 ⟨code, merge_of_merged h, ih⟩

/-- What the stream is after as many passes as the tally can count decides
how the repetition ends: with this stream, if it is merged, and otherwise
with an overflow. -/
theorem mergeOn_eq_mergeTimes (passes : Nat) (hpasses : passes ≤ Tally.greatest)
    (hcode : Upwards code) (hfits : counts code < 2 ^ 63) :
    ∃ last, mergeTimes (Tally.greatest - passes) code = .ok last ∧
      (mergeOn passes code = .ok last ∧ Merged last ∨
        mergeOn passes code = .error .add ∧
          ∃ next, merge last = .ok next ∧ next.length < last.length) := by
  fun_induction mergeOn passes code with
  | case1 passes code e hmerge =>
    obtain ⟨next, hnext, -⟩ := exists_merge_of_counts hfits
    cases hmerge.symm.trans hnext
  | case2 passes code next hmerge hshorter e htally =>
    obtain ⟨hfull, rfl⟩ := Tally.next_eq_error_iff.1 htally
    rw [Nat.sub_eq_zero_of_le hfull]
    exact ⟨code, rfl, .inr ⟨rfl, next, hmerge, hshorter⟩⟩
  | case3 passes code next hmerge hshorter passes' htally ih =>
    obtain ⟨hroom, rfl⟩ := Tally.next_eq_ok_iff.1 htally
    obtain ⟨next', hnext', hle⟩ := exists_merge_of_counts hfits
    obtain rfl := Except.ok.inj (hmerge.symm.trans hnext')
    obtain ⟨last, hlast, hends⟩ := ih hroom (upwards_of_merge hmerge) (by omega)
    have hone : Tally.greatest - passes = (Tally.greatest - (passes + 1)) + 1 := by omega
    exact ⟨last, hone ▸ bind_eq_ok_iff.2 ⟨next, hmerge, hlast⟩, hends⟩
  | case4 passes code next hmerge hlength =>
    have hle := length_le_of_merge hmerge
    have hmerged : Merged code := ⟨hcode, apart_of_merge hmerge (by omega)⟩
    exact ⟨code, mergeTimes_of_merged hmerged _, .inl ⟨rfl, hmerged⟩⟩

/-- **Merging to the end ends at a fixpoint, or its tally overflows.** Let the
operands of a stream together stay below `2 ^ 63`. Then `2 ^ 31 - 1` passes
lead to a stream `last`. If it is merged, it is the result: another pass
gives back the very same stream, its steps have positive counts, and no two
neighbours in it have the same counted opcode or opposite ones. If instead
one more pass shrinks it, the tally of the passes overflows, for which the
stream must be at least as long. -/
theorem mergeAll_reaches_fixpoint (h : weight code < 2 ^ 63) :
    ∃ last, mergeTimes Tally.greatest code = .ok last ∧
      (mergeAll code = .ok last ∧ merge last = .ok last ∧ Merged last ∨
        mergeAll code = .error .add ∧ Tally.greatest ≤ code.length ∧
          ∃ next, merge last = .ok next ∧ next.length < last.length) := by
  have hcounts : counts code < 2 ^ 63 := Nat.lt_of_le_of_lt (counts_le_weight code) h
  obtain ⟨once, hmerge, hle⟩ := exists_merge_of_counts hcounts
  obtain ⟨last, hlast, hends⟩ :=
    mergeOn_eq_mergeTimes 1 (by decide) (upwards_of_merge hmerge) (by omega)
  have hall : mergeAll code = mergeOn 1 once := by rw [mergeAll, hmerge]; rfl
  refine ⟨last, bind_eq_ok_iff.2 ⟨once, hmerge, hlast⟩, ?_⟩
  rcases hends with ⟨hok, hmerged⟩ | ⟨herror, hnext⟩
  · exact .inl ⟨hall.trans hok, merge_of_merged hmerged, hmerged⟩
  · rcases mergeAll_of_counts hcounts with ⟨code', hcode', -⟩ | ⟨-, hlong⟩
    · cases (hall.trans herror).symm.trans hcode'
    · exact .inr ⟨hall.trans herror, hlong, hnext⟩

/-- Cancellations that bring new neighbours together twice, a read that
counts nothing, and a lone step with a count below zero. -/
theorem mergeAll_reaches_fixpoint_cascade :
    let code : List Instruction :=
      [⟨.add, 2, 0, none⟩, ⟨.right, 1, 0, none⟩, ⟨.sub, 4, 0, none⟩, ⟨.add, 4, 0, none⟩,
        ⟨.left, 1, 0, none⟩, ⟨.add, -5, 0, none⟩, ⟨.read, 0, 0, none⟩]
    let result : List Instruction := [⟨.sub, 3, 0, none⟩, ⟨.read, 0, 0, none⟩]
    weight code < 2 ^ 63 ∧ mergeTimes Tally.greatest code = .ok result ∧
      mergeAll code = .ok result ∧ merge result = .ok result ∧ Merged result := by
  intro code result
  have hweight : weight code < 2 ^ 63 := by decide
  have hresult : mergeAll code = .ok result := by cbv
  obtain ⟨last, hlast, ⟨hall, hmerge, hmerged⟩ | ⟨-, hlong, -⟩⟩ :=
    mergeAll_reaches_fixpoint hweight
  · obtain rfl := Except.ok.inj (hresult.symm.trans hall)
    exact ⟨hweight, hlast, hresult, hmerge, hmerged⟩
  · exact absurd hlong (by decide)

end Stream

/-! ## 6. As many passes as the tally can count

Steps that cannot be merged, followed by the way back from them: only the
pair in the middle meets, and only when it is gone does the next. -/

/-- The step back over a step. -/
def Instruction.undo (i : Instruction) : Instruction :=
  { i with opcode := i.opcode.opposite?.getD i.opcode }

theorem Opcode.isCounted_of_step {op : Opcode} (h : op.opposite? ≠ none) :
    op.isCounted = true := by
  cases op <;> first | rfl | exact absurd rfl h

theorem Opcode.opposite?_ne {op op' : Opcode} (h : op.opposite? = some op') : op' ≠ op := by
  cases op <;> simp [opposite?] at h <;> subst h <;> decide

/-- Opposites go in pairs. -/
theorem Opcode.opposite?_symm {op op' : Opcode} (h : op.opposite? = some op') :
    op'.opposite? = some op := by
  cases op <;> simp [opposite?] at h <;> subst h <;> rfl

theorem Instruction.opposite?_of_undo {i : Instruction} {op : Opcode}
    (h : i.opcode.opposite? = some op) : i.undo.opcode = op ∧ op.opposite? = some i.opcode := by
  simp [undo, h, Opcode.opposite?_symm h]

/-- What merges on the way back has merged on the way there. -/
theorem Instruction.merges_of_undo {i j : Instruction} (hi : i.opcode.opposite? ≠ none)
    (hj : j.opcode.opposite? ≠ none) (h : j.undo.Merges i.undo) : i.Merges j := by
  unfold Merges undo at *
  cases hop : i.opcode <;> cases hop' : j.opcode <;>
    simp_all [Opcode.opposite?, Opcode.isCounted]

namespace Stream

/-- The steps, and the way back from them. -/
def thereAndBack (steps : List Instruction) : List Instruction :=
  steps ++ (steps.map Instruction.undo).reverse

theorem thereAndBack_concat (steps : List Instruction) (i : Instruction) :
    thereAndBack (steps ++ [i]) =
      steps ++ [i] ++ i.undo :: (steps.map Instruction.undo).reverse := by
  simp [thereAndBack]

theorem length_thereAndBack (steps : List Instruction) :
    (thereAndBack steps).length = 2 * steps.length := by
  simp [thereAndBack]
  omega

theorem weight_thereAndBack (steps : List Instruction) :
    weight (thereAndBack steps) = 2 * weight steps := by
  have hback : weight (steps.map Instruction.undo).reverse = weight steps := by
    simp [weight, Function.comp_def, Instruction.undo, List.sum_reverse]
  rw [thereAndBack, weight_append, hback]
  omega

/-- Steps of the cell and of the pointer, no two of which can be merged. -/
structure Path (steps : List Instruction) : Prop where
  steps_only : ∀ i ∈ steps, i.opcode.opposite? ≠ none
  merged : Merged steps

/-- A path without its last step is one. -/
theorem Path.of_concat {steps : List Instruction} {i : Instruction} (h : Path (steps ++ [i])) :
    Path steps where
  steps_only j hj := h.steps_only j (List.mem_append_left _ hj)
  merged := ⟨fun j hj => h.merged.upwards j (List.mem_append_left _ hj),
    h.merged.apart.left_of_append⟩

/-- The way back cannot be merged either. -/
theorem Path.merged_back {steps : List Instruction} (h : Path steps) :
    Merged (steps.map Instruction.undo).reverse where
  upwards i hi hstep := by
    obtain ⟨j, hj, rfl⟩ := List.mem_map.1 (List.mem_reverse.1 hi)
    exact h.merged.upwards j hj (h.steps_only j hj)
  apart := by
    rw [List.isChain_reverse, List.isChain_map]
    refine h.merged.apart.imp_of_mem_imp fun i j hi hj hapart hmerges => hapart ?_
    exact Instruction.merges_of_undo (h.steps_only i hi) (h.steps_only j hj) hmerges

/-- The pass over a path ends in a run that is its last step. -/
theorem Path.foldlM_eq {steps : List Instruction} {i : Instruction} (h : Path (steps ++ [i])) :
    (steps ++ [i]).foldlM Merging.feed {} =
      .ok { output := steps.toArray, run := some ⟨i, i.value⟩ } := by
  induction steps using List.reverseRecOn generalizing i with
  | nil =>
    have hi := Opcode.isCounted_of_step (h.steps_only i (by simp))
    simp [Merging.feed, Merging.start, hi, pure, Except.pure, bind, Except.bind]
  | append_singleton steps j ih =>
    have hi := Opcode.isCounted_of_step (h.steps_only i (by simp))
    have hj := Opcode.isCounted_of_step (h.steps_only j (by simp))
    have hapart : ¬ j.Merges i := by
      have hchain := h.merged.apart
      rw [List.append_assoc] at hchain
      exact (List.isChain_cons_cons.1 hchain.right_of_append).1
    have hpositive : 0 < j.value := h.merged.upwards j (by simp) (h.steps_only j (by simp))
    have hflush := Merging.flush_of_upwards (m := ⟨steps.toArray, some ⟨j, j.value⟩⟩)
      (upwards_singleton fun _ => hpositive)
    have hfeed := Merging.feed_of_not_merges (m := ⟨steps.toArray, some ⟨j, j.value⟩⟩) (i := i)
      (.of_run hj) (by simpa [Merging.pending, Run.step] using hapart)
    rw [hflush] at hfeed
    rw [List.foldlM_append, ih h.of_concat]
    simp [hfeed, bind, Except.bind, pure, Except.pure, Merging.start, hi, Merging.pending,
      Run.step]

/-- **A pass takes one pair out of the middle**, and leaves the rest. -/
theorem merge_thereAndBack {steps : List Instruction} {i : Instruction}
    (h : Path (steps ++ [i])) : merge (thereAndBack (steps ++ [i])) = .ok (thereAndBack steps) := by
  obtain ⟨op, hop⟩ := Option.ne_none_iff_exists'.1 (h.steps_only i (by simp))
  obtain ⟨hundo, hback⟩ := Instruction.opposite?_of_undo hop
  have hdifferent : i.undo.opcode ≠ i.opcode := by
    rw [hundo]
    exact fun hsame => Opcode.opposite?_ne hop hsame
  have hmeet : Merging.feed { output := steps.toArray, run := some ⟨i, i.value⟩ } i.undo =
      .ok { output := steps.toArray } := by
    have hzero : Operand.sub i.value i.undo.value = .ok 0 :=
      Operand.checked_eq_ok_iff.2 ⟨by simp [Instruction.undo]; decide, by simp [Instruction.undo]⟩
    simp only [Merging.feed]
    rw [if_neg hdifferent, if_pos (hop.trans (congrArg some hundo.symm)), hzero]
    simp [Merging.flush, Run.total, hop, bind, Except.bind, pure, Except.pure]
  have hrest := Merging.foldlM_rows (m := { output := steps.toArray })
    (fun j _ => amountsTo_self j) (.of_none _) h.of_concat.merged_back
  obtain ⟨m, hfold, hflush⟩ := bind_eq_ok_iff.1 hrest
  have hall : (thereAndBack (steps ++ [i])).foldlM Merging.feed {} = .ok m := by
    rw [thereAndBack_concat, List.foldlM_append, h.foldlM_eq]
    simpa [hmeet, bind, Except.bind] using hfold
  refine bind_eq_ok_iff.2 ⟨m, hall, bind_eq_ok_iff.2 ⟨_, hflush, ?_⟩⟩
  simp [thereAndBack, Merging.pending, pure, Except.pure]

/-- Merging to the end takes as many passes as there are pairs. -/
theorem mergeOn_thereAndBack {steps : List Instruction} (h : Path steps) (passes : Nat)
    (hpasses : passes ≤ Tally.greatest) : mergeOn passes (thereAndBack steps) =
      if passes + steps.length ≤ Tally.greatest then .ok [] else .error .add := by
  induction steps using List.reverseRecOn generalizing passes with
  | nil =>
    rw [if_pos (by simpa using hpasses)]
    exact mergeOn_of_merged h.merged
  | append_singleton steps i ih =>
    have hshorter : (thereAndBack steps).length < (thereAndBack (steps ++ [i])).length := by
      simp [length_thereAndBack]
    rw [mergeOn, merge_thereAndBack h]
    simp only [if_pos hshorter, List.length_append, List.length_singleton]
    by_cases hroom : passes < Tally.greatest
    · simp only [Tally.next, if_pos hroom, ih h.of_concat (passes + 1) hroom]
      congr 2
      omega
    · simp only [Tally.next, if_neg hroom]
      rw [if_neg (by omega)]

/-- The first pair goes in the pass that is made in any case. So all of them
go, if they are not more than the tally can count. -/
theorem mergeAll_thereAndBack {steps : List Instruction} (h : Path steps) :
    mergeAll (thereAndBack steps) =
      if steps.length ≤ Tally.greatest then .ok [] else .error .add := by
  induction steps using List.reverseRecOn with
  | nil => exact bind_eq_ok_iff.2 ⟨[], merge_of_merged h.merged, mergeOn_of_merged h.merged⟩
  | append_singleton steps i =>
    have hall : mergeAll (thereAndBack (steps ++ [i])) = mergeOn 1 (thereAndBack steps) := by
      rw [mergeAll, merge_thereAndBack h]
      rfl
    rw [hall, mergeOn_thereAndBack h.of_concat 1 (by decide), List.length_append,
      List.length_singleton, Nat.add_comm]

/-- Raising a cell and moving on, `n` times. -/
def staircase : Nat → List Instruction
  | 0 => []
  | n + 1 => ⟨.add, 1, 0, none⟩ :: ⟨.right, 1, 0, none⟩ :: staircase n

theorem length_staircase (n : Nat) : (staircase n).length = 2 * n := by
  induction n with
  | zero => rfl
  | succ n ih =>
    simp only [staircase, List.length_cons, ih]
    omega

theorem weight_staircase (n : Nat) : weight (staircase n) = 2 * n := by
  induction n with
  | zero => rfl
  | succ n ih =>
    simp only [staircase, weight_cons, ih]
    omega

/-- A staircase goes up and to the right in turn, so no two of its steps meet. -/
theorem path_staircase (n : Nat) : Path (staircase n) := by
  induction n with
  | zero => exact ⟨by simp [staircase], by simp [staircase, Upwards], .nil⟩
  | succ n ih =>
    refine ⟨?_, ?_, ?_⟩
    · simpa [staircase, Opcode.opposite?] using ih.steps_only
    · simpa [staircase, Upwards] using ih.merged.upwards
    · refine List.isChain_cons_cons.2 ⟨by decide, ?_⟩
      cases n with
      | zero => exact .singleton _
      | succ n => exact List.isChain_cons_cons.2 ⟨by decide, ih.merged.apart⟩

/-- **The tally of the passes can overflow**: on `2 ^ 30` times two steps and
the way back, whose operands together are `2 ^ 32`. -/
theorem mergeAll_overflows :
    ∃ code, weight code < 2 ^ 63 ∧ mergeAll code = .error .add := by
  refine ⟨thereAndBack (staircase 1073741824), ?_, ?_⟩
  · rw [weight_thereAndBack, weight_staircase]
    decide
  · rw [mergeAll_thereAndBack (path_staircase _), length_staircase]
    rfl

end Stream

end TapeCompiler
