/-
TapeCompiler.Proofs.NormalForm — one pass of flattening is enough.

A second pass finds nothing to do, whatever the stream was. It could only
find something that the first one made possible: two loops in a row, or a
body that became simple because a loop in it went away.

* Behind a loop the cell is zero, so the first pass drops loops there until
  something else stands there.
* A loop in a body leaves a mark (`LoopTree.Becomes.marked`): what is
  written for it is no step of a cell or the pointer. So a body with a loop
  in it never becomes simple, and a body without one stays as it is.

For two targets the difference is only in scan and print loops, which one
target replaces and the other keeps. `LoopTree.condense` replaces them in a
stream that is flattened otherwise, and it does not matter whether this is
done in the first pass or in the second.
-/
import TapeCompiler.Proofs.FlattenExact

namespace TapeCompiler

open Flattener

/-! ## 1. The mark of a loop -/

/-- The instruction is one that flattening leaves in the place of a loop. -/
def Instruction.IsMark (i : Instruction) : Prop :=
  i.opcode ∈ [.loopStart, .guard, .mul, .store, .scanRight, .scanLeft, .printRun]

theorem Instruction.IsMark.stops {i : Instruction} (h : i.IsMark) (pointer : Int)
    (rest : List Instruction) : finalPointer? pointer (i :: rest) = .ok none := by
  simp only [IsMark, List.mem_cons, List.not_mem_nil, or_false] at h
  rcases h with hop | hop | hop | hop | hop | hop | hop <;> simp [finalPointer?, hop]

theorem Instruction.IsMark.patternOpcode_eq {i : Instruction} (h : i.IsMark)
    {body : List Instruction} (hi : i ∈ body) (target : Target) :
    patternOpcode? target body = none := by
  rw [Option.eq_none_iff_forall_ne_some]
  intro opcode hpattern
  simp only [IsMark, List.mem_cons, List.not_mem_nil, or_false] at h
  rcases patternOpcode_cases hpattern with ⟨step, rfl, -, hstep⟩ |
    ⟨out, next, rfl, hout, -, hnext, -⟩
  · rw [List.mem_singleton] at hi
    subst hi
    rcases hstep with ⟨hop, -⟩ | ⟨hop, -⟩ <;> simp [hop] at h
  · rw [List.mem_cons, List.mem_singleton] at hi
    rcases hi with rfl | rfl
    · simp [hout] at h
    · simp [hnext] at h

theorem LoopTree.exists_loopStart {t : LoopTree} (h : t.loops ≠ 0) :
    ∃ i ∈ t.code, i.opcode = .loopStart := by
  induction t with
  | done => exact absurd rfl h
  | step i outside rest ih =>
    obtain ⟨j, hj, hop⟩ := ih h
    exact ⟨j, List.mem_cons_of_mem _ hj, hop⟩
  | loop start body close opens closes rest => exact ⟨start, by simp, opens⟩

/-- A walk stops if it does behind its first steps. -/
theorem stops_append {code code' : List Instruction}
    (h : ∀ pointer, finalPointer? pointer code = .ok none → finalPointer? pointer code' = .ok none)
    (steps : List Instruction) (pointer : Int)
    (hstops : finalPointer? pointer (steps ++ code) = .ok none) :
    finalPointer? pointer (steps ++ code') = .ok none := by
  induction steps generalizing pointer with
  | nil => exact h pointer hstops
  | cons i steps ih =>
    have hmove (hrun : (do
        let distance ← i.displacement
        let pointer ← Operand.add pointer distance
        finalPointer? pointer (steps ++ code)) = .ok none) : (do
        let distance ← i.displacement
        let pointer ← Operand.add pointer distance
        finalPointer? pointer (steps ++ code')) = .ok none := by
      obtain ⟨distance, hdistance, hrun⟩ := bind_eq_ok_iff.1 hrun
      obtain ⟨next, hnext, hrun⟩ := bind_eq_ok_iff.1 hrun
      exact bind_eq_ok_iff.2 ⟨distance, hdistance, bind_eq_ok_iff.2 ⟨next, hnext, ih next hrun⟩⟩
    cases hop : i.opcode <;> simp only [List.cons_append, finalPointer?, hop] at hstops ⊢
    case right => exact hmove hstops
    case left => exact hmove hstops
    case add => exact ih pointer hstops
    case sub => exact ih pointer hstops

namespace Mode

/-- What is still to be written is no step: a store, or the clear that is
owed. -/
def MarkPending (m : Mode) : Prop := ∃ i, m.pending = [i] ∧ i.IsMark

theorem markPending_owing (start : Instruction) : MarkPending (owing start) :=
  ⟨_, rfl, by simp [Instruction.IsMark, Instruction.clearing]⟩

theorem MarkPending.head_settle {m : Mode} (h : m.MarkPending) (t : LoopTree) :
    ∃ i rest, (m.settle t).code = i :: rest ∧ i.IsMark := by
  obtain ⟨i, hi, hmark⟩ := h
  exact ⟨i, t.code, by simp [hi], hmark⟩

/-- A loop may come first in what is written. -/
def loopMayStart : Mode → Bool
  | plain => true
  | _ => false

end Mode

namespace LoopTree

variable {target : Target} {m : Mode} {t u : LoopTree} {n : LoopStats}

/-- Without a loop, nothing changes. -/
theorem Becomes.eq_settle (h : Becomes target m t u n) (hloops : t.loops = 0)
    (hm : ∀ start, m ≠ .owing start) : u = m.settle t := by
  induction h with
  | done => rfl
  | fold => exact absurd rfl (hm _)
  | hold undone _ _ ih =>
    rw [ih hloops (by simp)]
    rfl
  | pass _ _ ih =>
    rw [ih hloops (by simp)]
    rfl
  | dead => cases hloops
  | keep => cases hloops
  | pattern => cases hloops
  | clear => cases hloops
  | multiply => cases hloops

/-- A mark that is still to be written is not lost: a clear that undoes it
leaves one of its own. -/
theorem Becomes.head_of_pending (h : Becomes target m t u n) (hm : m.MarkPending) :
    ∃ i rest, u.code = i :: rest ∧ i.IsMark := by
  induction h with
  | done => exact hm.head_settle _
  | fold _ _ ih => exact ih ⟨_, rfl, by simp [Instruction.IsMark]⟩
  | hold => exact hm.head_settle _
  | pass => exact hm.head_settle _
  | dead => exact hm.head_settle _
  | keep => exact hm.head_settle _
  | pattern => exact hm.head_settle _
  | clear _ _ _ ih => exact ih (Mode.markPending_owing _)
  | multiply => exact hm.head_settle _

theorem isMark_of_pattern {body : List Instruction} {opcode : Opcode}
    (h : patternOpcode? target body = some opcode) (position : Option Position) :
    (⟨opcode, 0, 0, position⟩ : Instruction).IsMark := by
  rcases opcode_of_pattern h with rfl | rfl | rfl <;> simp [Instruction.IsMark]

/-- **A loop leaves a mark**, and a walk that stopped before it, or at it,
stops still. -/
theorem Becomes.marked (h : Becomes target m t u n) (hm : m.isZero = false)
    (hloops : t.loops ≠ 0) :
    (∃ i ∈ u.code, i.IsMark) ∧
      ∀ pointer, finalPointer? pointer (m.pending ++ t.code) = .ok none →
        finalPointer? pointer u.code = .ok none := by
  -- where the mark stands first, behind what was still to be written
  have hfirst {m : Mode} {i : Instruction} (hi : i.IsMark) (code rest : List Instruction) :
      (∃ j ∈ m.pending ++ i :: rest, j.IsMark) ∧
        ∀ pointer, finalPointer? pointer (m.pending ++ code) = .ok none →
          finalPointer? pointer (m.pending ++ i :: rest) = .ok none :=
    ⟨⟨i, by simp, hi⟩, stops_append (fun pointer _ => hi.stops pointer rest) m.pending⟩
  induction h with
  | done => exact absurd rfl hloops
  | fold => cases hm
  | @hold m i outside rest u n undone _ _ ih =>
    obtain ⟨⟨j, hj, hmark⟩, hstops⟩ := ih rfl hloops
    rw [Mode.code_settle]
    exact ⟨⟨j, List.mem_append_right _ hj, hmark⟩, stops_append hstops m.pending⟩
  | @pass m i outside rest u n _ _ ih =>
    obtain ⟨⟨j, hj, hmark⟩, hstops⟩ := ih rfl hloops
    rw [Mode.code_settle]
    exact ⟨⟨j, List.mem_append_right _ (List.mem_cons_of_mem _ hj), hmark⟩,
      stops_append (stops_append hstops [i]) m.pending⟩
  | dead hm' => simp [hm] at hm'
  | @keep m start close body body' rest u n n' opens closes =>
    rw [Mode.code_settle, code_loop]
    exact hfirst (by simp [Instruction.IsMark, opens]) _ _
  | pattern _ verdict =>
    rw [Mode.code_settle, code_step]
    exact hfirst (isMark_of_pattern (Verdict.patternOpcode_of_ofLoop verdict) _) _ _
  | clear _ _ hrest =>
    obtain ⟨i, rest, hcode, hmark⟩ := hrest.head_of_pending (Mode.markPending_owing _)
    rw [hcode]
    exact ⟨⟨i, by simp, hmark⟩, fun pointer _ => hmark.stops pointer rest⟩
  | multiply =>
    rw [Mode.code_settle, code_prepend]
    exact hfirst (by simp [Instruction.IsMark]) _ _

/-- A kept loop is still one that is kept, whatever was done to its body. -/
theorem Becomes.verdict_eq {body body' : LoopTree} (h : Becomes target .plain body body' n)
    (hkeep : Verdict.ofBody body.code = .ok .keep) :
    Verdict.ofBody body'.code = .ok .keep ∧
      ∀ target', patternOpcode? target' body'.code = patternOpcode? target' body.code := by
  by_cases hloops : body.loops = 0
  · obtain rfl : body' = body := h.eq_settle hloops (by simp)
    exact ⟨hkeep, fun _ => rfl⟩
  obtain ⟨start, hstart, hop⟩ := exists_loopStart hloops
  obtain ⟨⟨i, hi, hmark⟩, hstops⟩ := h.marked rfl hloops
  constructor
  · obtain ⟨simple, hsimple, -⟩ := bind_eq_ok_iff.1 hkeep
    obtain ⟨final, hfinal, -⟩ := bind_eq_ok_iff.1 (FlattenError.ofOverflow_eq_ok_iff.1 hsimple)
    -- a bracket stands in the way of the walk, so it cannot have come to the end
    cases final with
    | none => exact Verdict.ofBody_of_finalPointer (hstops 0 hfinal) (by simp)
    | some pointer =>
      have hplain := plain_of_finalPointer hfinal start hstart
      simp [Instruction.Plain, hop, Opcode.opensBlock] at hplain
  · intro target'
    have hmark' : start.IsMark := by simp [Instruction.IsMark, hop]
    rw [hmark.patternOpcode_eq hi, hmark'.patternOpcode_eq hstart]

/-! ## 2. Normal trees -/

/-- There is nothing to do in the tree for a pass. Behind a loop `first` is
false, and no other loop may follow. -/
inductive Normal (target : Target) : Bool → LoopTree → Prop where
  | done (first : Bool) : Normal target first done
  | step {first : Bool} {i : Instruction} {outside : i.OutsideLoops} {rest : LoopTree}
      (hrest : Normal target true rest) : Normal target first (step i outside rest)
  | loop {start close : Instruction} {body rest : LoopTree} {opens : start.opcode = .loopStart}
      {closes : close.opcode = .loopEnd} (verdict : Verdict.ofLoop target body.code = .ok .keep)
      (hbody : Normal target true body) (hrest : Normal target false rest) :
      Normal target true (loop start body close opens closes rest)

namespace Normal

theorem weaken (h : Normal target false t) (first : Bool) : Normal target first t := by
  cases h with
  | done => exact .done first
  | step hrest => exact .step hrest

theorem prepend (h : Normal target true t) {steps : List Instruction}
    (outside : ∀ i ∈ steps, i.OutsideLoops) : Normal target true (t.prepend steps outside) := by
  induction steps with
  | nil => exact h
  | cons i steps ih => exact .step (ih _)

end Normal

theorem Normal.settle (h : Normal target false t) (m : Mode) :
    Normal target m.loopMayStart (m.settle t) := by
  cases m with
  | plain => exact h.weaken true
  | zero => exact h
  | held => exact .step (h.weaken true)
  | owing => exact .step (h.weaken true)

theorem Normal.settle_loop (h : Normal target true t) (hm : m.isZero = false) :
    Normal target m.loopMayStart (m.settle t) := by
  cases m with
  | plain => exact h
  | held => exact .step h
  | zero => cases hm
  | owing => cases hm

/-- **What is written is normal.** -/
theorem Becomes.normal (h : Becomes target m t u n) : Normal target m.loopMayStart u := by
  induction h with
  | done m => exact Normal.settle (.done _) m
  | fold _ _ ih => exact ih
  | hold _ _ _ ih => exact ih.settle _
  | pass _ _ ih => exact Normal.settle (.step ih) _
  | dead _ _ ih => exact ih.settle _
  | keep hm verdict hbody _ ihb ihr =>
    obtain ⟨hpattern, hkeep⟩ := Verdict.ofLoop_eq_keep_iff.1 verdict
    obtain ⟨hkeep', hsame⟩ := hbody.verdict_eq hkeep
    have verdict' := Verdict.ofLoop_eq_keep_iff.2 ⟨(hsame _).trans hpattern, hkeep'⟩
    exact Normal.settle_loop (.loop verdict' ihb ihr) hm
  | pattern _ _ _ _ ih => exact Normal.settle (.step (ih.weaken true)) _
  | clear _ _ _ ih => exact ih.weaken _
  | multiply _ _ _ _ ih => exact Normal.settle (.step ((ih.weaken true).prepend _)) _

/-! ## 3. Scan and print loops -/

/-- The tree with its scan and print loops replaced. -/
def condense (target : Target) : LoopTree → LoopTree
  | done => done
  | step i outside rest => step i outside (rest.condense target)
  | loop start body close opens closes rest =>
    match h : patternOpcode? target body.code with
    | some opcode =>
      step ⟨opcode, 0, 0, start.position⟩ (outside_pattern h start.position)
        (rest.condense target)
    | none => loop start (body.condense target) close opens closes (rest.condense target)

section Condense

variable {start close : Instruction} {body : LoopTree} {opens : start.opcode = .loopStart}
  {closes : close.opcode = .loopEnd}

theorem condense_pattern {opcode : Opcode} (h : patternOpcode? target body.code = some opcode)
    (rest : LoopTree) :
    (loop start body close opens closes rest).condense target =
      step ⟨opcode, 0, 0, start.position⟩ (outside_pattern h start.position)
        (rest.condense target) := by
  rw [condense]
  split
  · rename_i opcode' h'
    obtain rfl : opcode = opcode' := Option.some.inj (h.symm.trans h')
    rfl
  · simp_all

theorem condense_keep (h : patternOpcode? target body.code = none) (rest : LoopTree) :
    (loop start body close opens closes rest).condense target =
      loop start (body.condense target) close opens closes (rest.condense target) := by
  rw [condense]
  split <;> simp_all

end Condense

theorem condense_settle (m : Mode) (t : LoopTree) :
    (m.settle t).condense target = m.settle (t.condense target) := by
  cases m <;> rfl

theorem condense_prepend {steps : List Instruction} (outside : ∀ i ∈ steps, i.OutsideLoops)
    (t : LoopTree) :
    (t.prepend steps outside).condense target = (t.condense target).prepend steps outside := by
  induction steps with
  | nil => rfl
  | cons i steps ih => simp [prepend, condense, ih]

theorem condense_of_normal {first : Bool} (h : Normal target first t) : t.condense target = t := by
  induction h with
  | done => rfl
  | step _ ih => rw [condense, ih]
  | loop verdict _ _ ihb ihr =>
    rw [condense_keep (Verdict.ofLoop_eq_keep_iff.1 verdict).1, ihb, ihr]

/-- Targets other than C have no such loops. -/
theorem condense_of_ne (h : target ≠ .c) (t : LoopTree) : t.condense target = t := by
  induction t with
  | done => rfl
  | step i outside rest ih => rw [condense, ih]
  | loop start body close opens closes rest ihb ihr =>
    have hnone : patternOpcode? target body.code = none :=
      Option.eq_none_iff_forall_ne_some.2 (fun _ hp => h (target_of_patternOpcode hp))
    rw [condense_keep hnone, ihb, ihr]

/-- A pass over a normal tree, for any target, does nothing but that. -/
theorem Normal.becomes {first : Bool} (h : Normal target first t) (target' : Target) (m : Mode)
    (hm : m.isZero = false ∨ m = .zero ∧ first = false) :
    ∃ n, Becomes target' m t (m.settle (t.condense target')) n ∧ (target' = target → n = {}) := by
  induction h generalizing m with
  | done => exact ⟨{}, .done m, fun _ => rfl⟩
  | @step first i outside rest _ ih =>
    cases hundone : overwritten i with
    | true =>
      obtain ⟨n, hrest, hn⟩ := ih (.held i hundone) (.inl rfl)
      have alone : ¬ m.Takes i := by
        rcases hm with hm | ⟨rfl, -⟩
        · cases m <;> simp_all [Mode.Takes, Mode.isZero]
        · exact id
      exact ⟨n, .hold hundone alone hrest, hn⟩
    | false =>
      obtain ⟨n, hrest, hn⟩ := ih .plain (.inl rfl)
      exact ⟨n, .pass hundone hrest, hn⟩
  | @loop start close body rest opens closes verdict _ _ ihb ihr =>
    obtain ⟨hpattern, hkeep⟩ := Verdict.ofLoop_eq_keep_iff.1 verdict
    have hm : m.isZero = false := by simpa using hm
    obtain ⟨n, hbody, hn⟩ := ihb .plain (.inl rfl)
    obtain ⟨n', hrest, hn'⟩ := ihr .zero (.inr ⟨rfl, rfl⟩)
    cases hpattern' : patternOpcode? target' body.code with
    | some opcode =>
      rw [condense_pattern hpattern']
      have verdict' : Verdict.ofLoop target' body.code = .ok (.pattern opcode) := by
        simp [Verdict.ofLoop, hpattern']
      refine ⟨_, .pattern hm verdict' _ hrest, ?_⟩
      rintro rfl
      simp [hpattern] at hpattern'
    | none =>
      rw [condense_keep hpattern']
      have verdict' := Verdict.ofLoop_eq_keep_iff.2 ⟨hpattern', hkeep⟩
      refine ⟨n + n', .keep hm verdict' hbody hrest, fun heq => ?_⟩
      rw [hn heq, hn' heq]
      rfl

/-- The first pass may as well do it. -/
theorem Becomes.condense (h : Becomes target m t u n) :
    ∃ n', Becomes .c m t (u.condense .c) n' := by
  induction h with
  | done m => exact ⟨{}, by rw [condense_settle]; exact .done m⟩
  | fold stored _ ih =>
    obtain ⟨n', hrest⟩ := ih
    exact ⟨_, .fold stored hrest⟩
  | hold undone alone _ ih =>
    obtain ⟨n', hrest⟩ := ih
    exact ⟨_, by rw [condense_settle]; exact .hold undone alone hrest⟩
  | pass stays _ ih =>
    obtain ⟨n', hrest⟩ := ih
    exact ⟨_, by rw [condense_settle]; exact .pass stays hrest⟩
  | dead hm _ ih =>
    obtain ⟨n', hrest⟩ := ih
    exact ⟨_, by rw [condense_settle]; exact .dead hm hrest⟩
  | @keep m start close body body' rest u n n' opens closes hm verdict hbody _ ihb ihr =>
    obtain ⟨-, hkeep⟩ := Verdict.ofLoop_eq_keep_iff.1 verdict
    obtain ⟨-, hsame⟩ := hbody.verdict_eq hkeep
    obtain ⟨n₁, hbody'⟩ := ihb
    obtain ⟨n₂, hrest⟩ := ihr
    rw [condense_settle]
    cases hc : patternOpcode? .c body.code with
    | some opcode =>
      rw [condense_pattern ((hsame .c).trans hc)]
      have verdict' : Verdict.ofLoop .c body.code = .ok (.pattern opcode) := by
        simp [Verdict.ofLoop, hc]
      exact ⟨_, .pattern hm verdict' _ hrest⟩
    | none =>
      rw [condense_keep ((hsame .c).trans hc)]
      exact ⟨_, .keep hm (Verdict.ofLoop_eq_keep_iff.2 ⟨hc, hkeep⟩) hbody' hrest⟩
  | pattern hm verdict outside _ ih =>
    obtain ⟨n', hrest⟩ := ih
    rw [condense_settle]
    exact ⟨_, .pattern hm (Verdict.ofLoop_c_of_ne_keep verdict (by simp)) outside hrest⟩
  | clear hm verdict _ ih =>
    obtain ⟨n', hrest⟩ := ih
    exact ⟨_, .clear hm (Verdict.ofLoop_c_of_ne_keep verdict (by simp)) hrest⟩
  | multiply hm verdict outside _ ih =>
    obtain ⟨n', hrest⟩ := ih
    rw [condense_settle, condense_prepend]
    exact ⟨_, .multiply hm (Verdict.ofLoop_c_of_ne_keep verdict (by simp)) outside hrest⟩

/-- A second pass, for any target, replaces scan and print loops and does
nothing else. -/
theorem Becomes.again (h : Becomes target m t u n) (hm : m = .plain ∨ m = .zero)
    (target' : Target) :
    ∃ n', Becomes target' m u (u.condense target') n' ∧ (target' = target → n' = {}) := by
  have hnormal := h.normal
  rcases hm with rfl | rfl
  · exact hnormal.becomes target' .plain (.inl rfl)
  · exact hnormal.becomes target' .zero (.inr ⟨rfl, rfl⟩)

end LoopTree

/-! ## 4. Whole streams -/

namespace Stream

variable {target : Target} {m : Mode} {code code' : List Instruction} {n : LoopStats}

/-- The second pass, compared with the first: for its own target or for one
without such loops it changes nothing, and for C it makes what C would have
made at once. -/
theorem Becomes.again (h : Becomes target m code code' n) (hm : m = .plain ∨ m = .zero)
    (target' : Target) :
    ∃ code'' n', Becomes target' m code' code'' n' ∧
      (target' = target → code'' = code' ∧ n' = {}) ∧ (target' ≠ .c → code'' = code') ∧
      (target' = .c → ∃ n'', Becomes .c m code code'' n'') := by
  induction h with
  | last h =>
    obtain ⟨n', hagain, hn'⟩ := h.again hm target'
    refine ⟨_, n', .last hagain, fun heq => ⟨?_, hn' heq⟩, fun hne => ?_, ?_⟩
    · rw [heq, LoopTree.condense_of_normal h.normal]
    · rw [LoopTree.condense_of_ne hne]
    · rintro rfl
      obtain ⟨n'', hc⟩ := h.condense
      exact ⟨n'', .last hc⟩
  | next h closes _ ih =>
    obtain ⟨n', hagain, hn'⟩ := h.again hm target'
    obtain ⟨more'', k, hmore, hsame, hother, hc'⟩ := ih (.inr rfl)
    refine ⟨_, _, .next hagain closes hmore, fun heq => ?_, fun hne => ?_, ?_⟩
    · obtain ⟨rfl, rfl⟩ := hsame heq
      rw [hn' heq, heq, LoopTree.condense_of_normal h.normal]
      exact ⟨rfl, rfl⟩
    · rw [LoopTree.condense_of_ne hne, hother hne]
    · intro heq
      obtain ⟨n'', hc⟩ := h.condense
      obtain ⟨k', hmore'⟩ := hc' heq
      subst heq
      exact ⟨_, .next hc closes hmore'⟩

/-- **One pass of flattening is enough.** Whatever the stream, if it is
flattened for one target, flattening the result for another one succeeds.
It gives what flattening the stream for C gives if one of them is C, and
else it gives the result again. For the same target nothing is counted. -/
theorem flatten_twice {t₁ : Target} {code code₁ : List Instruction}
    (h : Stream.flatten t₁ code = .ok code₁) (t₂ : Target) :
    (∃ code₂, Stream.flatten t₂ code₁ = .ok code₂ ∧
      if t₁ = .c ∨ t₂ = .c then Stream.flatten .c code = .ok code₂ else code₂ = code₁) ∧
      Stream.flattenWithStats t₁ code₁ = .ok (code₁, {}) := by
  obtain ⟨n, hfirst⟩ := flatten_eq_ok_iff.1 h
  constructor
  · obtain ⟨code₂, n₂, hsecond, hsame, hother, hc⟩ := hfirst.again (.inl rfl) t₂
    refine ⟨code₂, flatten_eq_ok_iff.2 ⟨n₂, hsecond⟩, ?_⟩
    split
    · rename_i htarget
      by_cases heq : t₂ = .c
      · exact flatten_eq_ok_iff.2 (hc heq)
      · obtain rfl : t₁ = .c := htarget.resolve_right heq
        rwa [hother heq]
    · rename_i htarget
      exact hother (fun heq => htarget (.inr heq))
  · obtain ⟨code₂, n₂, hsecond, hsame, -, -⟩ := hfirst.again (.inl rfl) t₁
    obtain ⟨rfl, rfl⟩ := hsame rfl
    exact flattenWithStats_eq_ok_iff.2 hsecond

/-- A bracket that closes nothing, a scan loop that only C replaces, and a
dead loop behind it. -/
theorem flatten_twice_scan :
    ∃ code₁ code₂ : List Instruction,
      Stream.flatten .qbe
          [⟨.loopEnd, 9, 0, none⟩, ⟨.right, 1, 0, none⟩, ⟨.loopStart, 4, 0, none⟩,
            ⟨.right, 1, 0, none⟩, ⟨.loopEnd, 4, 0, none⟩, ⟨.loopStart, 5, 0, none⟩,
            ⟨.sub, 1, 0, none⟩, ⟨.loopEnd, 5, 0, none⟩] = .ok code₁ ∧
        Stream.flatten .c code₁ = .ok code₂ ∧
        Stream.flatten .c
          [⟨.loopEnd, 9, 0, none⟩, ⟨.right, 1, 0, none⟩, ⟨.loopStart, 4, 0, none⟩,
            ⟨.right, 1, 0, none⟩, ⟨.loopEnd, 4, 0, none⟩, ⟨.loopStart, 5, 0, none⟩,
            ⟨.sub, 1, 0, none⟩, ⟨.loopEnd, 5, 0, none⟩] = .ok code₂ ∧
        code₁.length = 5 ∧ Stream.flattenWithStats .qbe code₁ = .ok (code₁, {}) := by
  have hfirst : Stream.flatten .qbe
      [⟨.loopEnd, 9, 0, none⟩, ⟨.right, 1, 0, none⟩, ⟨.loopStart, 4, 0, none⟩,
        ⟨.right, 1, 0, none⟩, ⟨.loopEnd, 4, 0, none⟩, ⟨.loopStart, 5, 0, none⟩,
        ⟨.sub, 1, 0, none⟩, ⟨.loopEnd, 5, 0, none⟩] =
      .ok [⟨.loopEnd, 9, 0, none⟩, ⟨.right, 1, 0, none⟩, ⟨.loopStart, 4, 0, none⟩,
        ⟨.right, 1, 0, none⟩, ⟨.loopEnd, 4, 0, none⟩] := by
    cbv
  obtain ⟨⟨code₂, hsecond, hc⟩, hstats⟩ := flatten_twice hfirst .c
  exact ⟨_, code₂, hfirst, hsecond, hc, rfl, hstats⟩

end Stream

end TapeCompiler
