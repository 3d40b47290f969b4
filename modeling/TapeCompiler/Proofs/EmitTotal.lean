/-
TapeCompiler.Proofs.EmitTotal — streams that a target writes in full.

An emitter can stop early in three ways: at an instruction that its format
has no words for, at a product that overflows, and at a read that QBE's tally
cannot count. It warns if a block is still open at the end.
`Target.Expresses` rules out the first two, one instruction at a time, the
reads of the whole stream decide about the third, and the tree of the stream
rules out the warning.

`Emitter.Nests` splits the argument between the formats and the trees. A
format only has to say what it remembers about open blocks, that a plain
instruction leaves this alone, and that a closing bracket brings back what
was there before the opening one. All else is an induction on the tree, and
the same for the six targets (`Emitter.Nests.view_stateAfter`).
-/
import TapeCompiler.Emit
import TapeCompiler.Proofs.CellSteps
import TapeCompiler.Proofs.Merging
import TapeCompiler.Proofs.Pieces

namespace TapeCompiler

/-! ## 1. Emitters and blocks -/

namespace Emitter

variable {σ α β γ : Type} {e : Emitter σ α} {view : σ → β}

/-- The emitter comes out of a block as it went in; `view` is what it
remembers about open blocks. -/
structure Nests (e : Emitter σ α) (view : σ → β) : Prop where
  plain : ∀ {s s' : σ} {i : Instruction}, i.Plain → (e.step s i).result = .ok s' →
    view s' = view s
  block : ∀ {s s' s₁ s₂ : σ} {start close : Instruction}, close.Closes start →
    (e.step s start).result = .ok s' → view s₁ = view s' → (e.step s₁ close).result = .ok s₂ →
    view s₂ = view s

/-- Behind a tree that it writes, the emitter remembers what it did before. -/
theorem Nests.view_stateAfter (h : e.Nests view) {t : Tree} {s : σ} (ht : e.Passes s t.code) :
    view (e.stateAfter s t.code) = view s := by
  induction t generalizing s with
  | done => rfl
  | step i plain rest ih =>
    obtain ⟨hi, hrest⟩ := ht
    exact (ih hrest).trans (h.plain plain hi)
  | block start body close closes rest ihb ihr =>
    rw [Tree.code_block] at ht ⊢
    obtain ⟨hstart, ht⟩ := ht
    obtain ⟨hbody, hclose, hrest⟩ := passes_append.1 ht
    rw [stateAfter_cons, stateAfter_append, stateAfter_cons, ihr hrest]
    exact h.block closes hstart (ihb hbody) hclose

/-- A tree that is written ends without a warning, if there is none while no
block is open. -/
theorem Nests.outcome_emit (h : e.Nests view) {s : σ} (hstart : e.start.result = .ok s)
    {t : Tree} (ht : e.Passes s t.code)
    (hfinish : ∀ s', view s' = view s → (e.finish s').result = .ok []) :
    (e.emit t.code).outcome = .ok [] :=
  (emit_of_passes hstart ht).2.trans (hfinish _ (h.view_stateAfter ht))

/-- Comments leave everything else as it is. -/
theorem Nests.withComments (h : e.Nests view) (on : Bool) (comment : σ → Instruction → α) :
    (e.withComments on comment).Nests view := by
  constructor
  · intro s s' i plain hi
    rw [result_withComments] at hi
    exact h.plain plain hi
  · intro s s' s₁ s₂ start close closes hstart hview hclose
    rw [result_withComments] at hstart hclose
    exact h.block closes hstart hview hclose

/-- The emitter has the open loops on a stack, and keeps no other books. -/
structure KeepsStack (e : Emitter σ α) (loops : σ → List γ) : Prop where
  opens : ∀ {s s' : σ} {i : Instruction}, i.opcode = .loopStart → (e.step s i).result = .ok s' →
    ∃ entry, loops s' = entry :: loops s
  closes : ∀ {s s' : σ} {i : Instruction}, i.opcode = .loopEnd → (e.step s i).result = .ok s' →
    loops s' = (loops s).tail
  others : ∀ {s s' : σ} {i : Instruction}, i.opcode ≠ .loopStart → i.opcode ≠ .loopEnd →
    (e.step s i).result = .ok s' → loops s' = loops s

/-- So it comes out of a block as it went in. -/
theorem KeepsStack.nests {loops : σ → List γ} (h : e.KeepsStack loops) : e.Nests loops := by
  constructor
  · intro s s' i plain hi
    have hstart : i.opcode ≠ .loopStart := fun hop => by
      have hopen := plain.1
      simp [hop, Opcode.opensBlock] at hopen
    have hend : i.opcode ≠ .loopEnd := fun hop => by
      have hclose := plain.2
      simp [hop, Opcode.closesBlock] at hclose
    exact h.others hstart hend hi
  · intro s s' s₁ s₂ start close closes hstart hview hclose
    rcases closes.kinds with ⟨hs, hc⟩ | ⟨hs, hc⟩
    · obtain ⟨entry, hpushed⟩ := h.opens hs hstart
      rw [h.closes hc hclose, hview, hpushed, List.tail_cons]
    · rw [h.others (by simp [hc]) (by simp [hc]) hclose, hview,
        h.others (by simp [hs]) (by simp [hs]) hstart]

end Emitter

/-! ## 2. What a target expresses -/

/-- The target has words for the instruction, and distances fit when they are
counted in bytes. -/
structure Target.Expresses (target : Target) (i : Instruction) : Prop where
  symbol : target = .symbols → i.opcode.symbol? ≠ none
  pattern : i.opcode ∈ [.scanRight, .scanLeft, .printRun] → target = .c
  division : i.opcode = .div → i.offset = 0
  move : i.IsMove → i.value.natAbs < 2 ^ 61
  distance : i.opcode ∈ [.mul, .store] → i.offset.natAbs < 2 ^ 61

/-- Only C has words for scan and print loops. -/
theorem Target.Expresses.not_pattern {target : Target} {i : Instruction} (h : target.Expresses i)
    (htarget : target ≠ .c) :
    i.opcode ≠ .scanRight ∧ i.opcode ≠ .scanLeft ∧ i.opcode ≠ .printRun :=
  ⟨fun hop => htarget (h.pattern (by simp [hop])), fun hop => htarget (h.pattern (by simp [hop])),
    fun hop => htarget (h.pattern (by simp [hop]))⟩

/-- How often the instruction reads. -/
def Instruction.reads (i : Instruction) : Nat := if i.opcode = .read then i.value.toNat else 0

/-- Reads are counts, so a bound on all counts bounds them too. -/
theorem Instruction.reads_le_tally (i : Instruction) : i.reads ≤ i.tally := by
  unfold reads tally
  split
  · rename_i hop
    simp only [hop, Opcode.isCounted, if_true]
    omega
  · exact Nat.zero_le _

namespace Stream

/-- How often the instructions of a stream read. -/
def reads (code : List Instruction) : Nat := (code.map Instruction.reads).sum

@[simp] theorem reads_nil : reads [] = 0 := rfl

@[simp] theorem reads_cons (i : Instruction) (code : List Instruction) :
    reads (i :: code) = i.reads + reads code := by
  simp [reads]

@[simp] theorem reads_append (code code' : List Instruction) :
    reads (code ++ code') = reads code + reads code' := by
  simp [reads]

theorem reads_le_counts (code : List Instruction) : reads code ≤ counts code := by
  induction code with
  | nil => exact Nat.le_refl _
  | cons i rest ih =>
    have hi := i.reads_le_tally
    rw [reads_cons, counts_cons]
    omega

end Stream

/-- A product fits if the product with a bound does. -/
theorem Size.mul_of_lt {a b bound : Nat} (hb : b ≤ bound) (h : a * bound < 2 ^ 64) :
    Size.mul a b = .ok (a * b) := by
  have hle : a * b ≤ a * bound := Nat.mul_le_mul_left a hb
  have hfits : a * b ≤ Size.greatest := by
    unfold Size.greatest
    omega
  simp [Size.mul, hfits]

/-! ## 3. Formats with indentation -/

namespace Dialect

variable {d : Dialect} {accepts : Instruction → Prop}

theorem result_plainEmitter (indent : Indent) {i : Instruction} {lines : List (Nat × String)}
    (h : d.statement i = some lines) :
    (d.plainEmitter.step indent i).result = .ok (exitIndent indent i) := by
  simp [plainEmitter, h, Written.ok]

theorem exitIndent_of_result {indent indent' : Indent} {i : Instruction}
    (h : (d.plainEmitter.step indent i).result = .ok indent') : exitIndent indent i = indent' := by
  cases hlines : d.statement i with
  | none => simp [plainEmitter, hlines, Written.fail] at h
  | some lines => exact Except.ok.inj ((result_plainEmitter indent hlines).symm.trans h)

/-- The indentation behind a block is that before it. -/
theorem nests (d : Dialect) : d.plainEmitter.Nests id := by
  constructor
  · intro indent indent' i plain hi
    rw [← exitIndent_of_result hi]
    simp [exitIndent, plain.1, plain.2]
  · intro indent indent' indent₁ indent₂ start close closes hstart hview hclose
    rw [← exitIndent_of_result hclose, show indent₁ = indent' from hview,
      ← exitIndent_of_result hstart]
    simp [exitIndent, closes.opens, closes.closes, closes.not_opens, Indent.deeper,
      Indent.shallower]

/-- **A format with indentation writes in full** what it has statements for. -/
theorem outcome_emit (comments : Bool)
    (h : ∀ i, accepts i → ∃ lines, d.statement i = some lines) {t : Tree}
    (ht : ∀ i ∈ t.code, accepts i) : ((d.emitter comments).emit t.code).outcome = .ok [] := by
  have hstart : (d.emitter comments).start.result = .ok base := by
    rw [emitter, Emitter.start_withComments]
    rfl
  refine (d.nests.withComments comments d.comment).outcome_emit hstart ?_ ?_
  · refine (Emitter.passes_withComments ..).2 (Emitter.passes_of_forall (fun i hi s => ?_) _)
    obtain ⟨lines, hlines⟩ := h i (ht i hi)
    exact ⟨_, result_plainEmitter s hlines⟩
  · rintro indent rfl
    rw [Emitter.finish_withComments]
    rfl

end Dialect

/-- JavaScript lacks words for scan and print loops, and for nothing else. -/
theorem JavaScript.exists_statement {i : Instruction} (h : Target.Expresses .javaScript i) :
    ∃ lines, JavaScript.statement? i = some lines := by
  obtain ⟨hright, hleft, hprint⟩ := h.not_pattern (by decide)
  unfold JavaScript.statement?
  cases hop : i.opcode <;> simp_all
  split
  · exact ⟨_, rfl⟩
  · split
    · exact ⟨_, rfl⟩
    · split <;> exact ⟨_, rfl⟩

/-! ## 4. Formats with jumps -/

namespace Qbe

/-- A distance of cells is also one of bytes, without an overflow. -/
theorem scaled_of_lt (w : Width) {distance : Int} (h : distance.natAbs < 2 ^ 61) :
    scaled w distance = .ok (distance * w.bytes) := by
  have hbytes : w.bytes = 1 ∨ w.bytes = 2 ∨ w.bytes = 4 := by cases w <;> simp [Width.bytes]
  have hfits : (distance * w.bytes).natAbs < 2 ^ 63 := by
    rcases hbytes with hbytes | hbytes | hbytes <;> rw [hbytes] <;> omega
  rw [scaled, Operand.mul, Operand.checked_of_natAbs_lt _ hfits]
  rfl

variable {s s' : State} {i : Instruction} {options : EmitOptions}

/-- The tally goes up by the reads that are written. -/
theorem reads_of_step {w : Width} (h : (step w s i).result = .ok s') :
    s'.reads = s.reads + i.reads := by
  unfold step at h
  unfold Instruction.reads
  cases hop : i.opcode <;> simp only [hop, putReads, Written.ok, Written.fail] at h
  all_goals
    repeat' split at h
    all_goals cases h <;> rfl

/-- An instruction that the format has words for is written, if its reads can
be counted. -/
theorem exists_step (w : Width) (hi : Target.Expresses .qbe i)
    (hreads : s.reads + i.reads ≤ Tally.greatest) : ∃ s', (step w s i).result = .ok s' := by
  obtain ⟨hright, hleft, hprint⟩ := hi.not_pattern (by decide)
  have hdistance (hop : i.opcode ∈ [.mul, .store]) := scaled_of_lt w (hi.distance hop)
  have hmove (hop : i.IsMove) := scaled_of_lt w (hi.move hop)
  have hdiv := hi.division
  unfold step
  cases hop : i.opcode
  case read =>
    have hroom : i.value.toNat ≤ Tally.greatest - s.reads := by
      simp only [Instruction.reads, hop, if_true] at hreads
      omega
    exact ⟨{ s with reads := s.reads + i.value.toNat }, by
      simp only [putReads, hroom, if_true, Written.ok]⟩
  all_goals simp_all [Written.ok, Instruction.IsMove]
  case mul => split <;> simp
  case store => split <;> simp

/-- A read that cannot be counted ends the work. -/
theorem overflow_of_step (w : Width) (hs : s.reads ≤ Tally.greatest)
    (hreads : Tally.greatest < s.reads + i.reads) :
    (step w s i).result = .error (.overflow .add) := by
  by_cases hop : i.opcode = .read
  · have hroom : ¬ i.value.toNat ≤ Tally.greatest - s.reads := by
      simp only [Instruction.reads, hop, if_true] at hreads
      omega
    simp only [step, hop, putReads, hroom, if_false, Written.fail]
  · simp only [Instruction.reads, hop, if_false] at hreads
    omega

theorem result_step_emitter (s : State) (i : Instruction) :
    ((emitter options).step s i).result = (step options.width s i).result :=
  Emitter.result_withComments ..

/-- As long as there is room in the tally, all is written. -/
theorem passes_of_reads {code : List Instruction} (hcode : ∀ i ∈ code, Target.Expresses .qbe i)
    (h : s.reads + Stream.reads code ≤ Tally.greatest) : (emitter options).Passes s code := by
  induction code generalizing s with
  | nil => trivial
  | cons i rest ih =>
    rw [List.forall_mem_cons] at hcode
    rw [Stream.reads_cons] at h
    obtain ⟨s', hs'⟩ := exists_step options.width hcode.1 (s := s) (by omega)
    have hreads := reads_of_step hs'
    rw [← result_step_emitter] at hs'
    refine ⟨by rw [hs', Emitter.next_of_ok hs'], ih hcode.2 ?_⟩
    rw [Emitter.next_of_ok hs', hreads]
    omega

/-- The first read without room ends the work, wherever it stands. -/
theorem overflow_of_reads {code : List Instruction} (hcode : ∀ i ∈ code, Target.Expresses .qbe i)
    (hs : s.reads ≤ Tally.greatest) (h : Tally.greatest < s.reads + Stream.reads code)
    (done : Array Line) :
    ((emitter options).run done s code).outcome = .error (.overflow .add) := by
  induction code generalizing s done with
  | nil =>
    rw [Stream.reads_nil] at h
    omega
  | cons i rest ih =>
    rw [List.forall_mem_cons] at hcode
    rw [Stream.reads_cons] at h
    by_cases hi : s.reads + i.reads ≤ Tally.greatest
    · obtain ⟨s', hs'⟩ := exists_step options.width hcode.1 hi
      have hreads := reads_of_step hs'
      rw [← result_step_emitter] at hs'
      rw [Emitter.run_cons_of_ok hs']
      exact ih hcode.2 (by omega) (by omega) _
    · have hfails := overflow_of_step options.width hs (Nat.lt_of_not_le hi)
      rw [← result_step_emitter] at hfails
      simp only [Emitter.run, hfails]

/-- What the format remembers are the labels of the open loops. -/
theorem keepsStack (options : EmitOptions) : (plainEmitter options).KeepsStack State.openLoops := by
  constructor
  · intro s s' i hop hi
    simp only [plainEmitter, step, hop, Written.ok] at hi
    cases hi
    exact ⟨_, rfl⟩
  · intro s s' i hop hi
    simp only [plainEmitter, step, hop, Written.ok] at hi
    cases hi
    rfl
  · intro s s' i hstart hend hi
    simp only [plainEmitter, step] at hi
    cases hop : i.opcode with
    | loopStart => exact absurd hop hstart
    | loopEnd => exact absurd hop hend
    | _ =>
      simp only [hop, putReads, Written.ok, Written.fail] at hi
      repeat' split at hi
      all_goals cases hi <;> rfl

/-- **Whether a stream is written in full** depends on how many reads it has, if
the format has words for its instructions. The tape is measured in bytes. -/
theorem outcome_emit_of_bytes (options : EmitOptions)
    (hsize : options.memorySize * options.width.bytes < 2 ^ 64) {t : Tree}
    (ht : ∀ i ∈ t.code, Target.Expresses .qbe i) :
    (emission options t.code).outcome =
      if Tally.greatest < Stream.reads t.code then .error (.overflow .add) else .ok [] := by
  have hstart : (emitter options).start.result = .ok {} := by
    rw [emitter, Emitter.start_withComments]
    simp [plainEmitter, header, Size.mul_of_lt (Nat.le_refl _) hsize, Written.ok]
  split
  · rename_i hreads
    rw [emission, Emitter.emit, hstart]
    exact overflow_of_reads ht (Nat.zero_le _) (by simpa using hreads) _
  · rename_i hreads
    refine ((keepsStack options).nests.withComments options.comments _).outcome_emit hstart
      (passes_of_reads ht (by simpa using hreads)) ?_
    intro s hview
    have hnone : s.openLoops = [] := hview
    rw [Emitter.finish_withComments]
    simp [plainEmitter, finish, hnone, Written.ok]

/-- The same under the bound that serves all formats. -/
theorem outcome_emit (options : EmitOptions) (hsize : options.memorySize * 32 < 2 ^ 64) {t : Tree}
    (ht : ∀ i ∈ t.code, Target.Expresses .qbe i) :
    (emission options t.code).outcome =
      if Tally.greatest < Stream.reads t.code then .error (.overflow .add) else .ok [] := by
  have hbytes : options.width.bytes ≤ 32 := by cases options.width <;> decide
  exact outcome_emit_of_bytes options
    (Nat.lt_of_le_of_lt (Nat.mul_le_mul_left _ hbytes) hsize) ht

end Qbe

namespace Llvm

/-- LLVM code has words for the instruction, and no distance overflows. -/
structure Accepts (i : Instruction) : Prop where
  pattern : i.opcode ∉ [.scanRight, .scanLeft, .printRun]
  division : i.opcode = .div → i.offset = 0
  move : i.opcode = .left → Operand.InRange (-i.value)

/-- What is accepted is written, in any state. -/
theorem exists_step (w : Width) (s : State) {i : Instruction} (h : Accepts i) :
    ∃ s', (step w s i).result = .ok s' := by
  have hpattern := h.pattern
  have hmove (hop : i.opcode = .left) : Operand.neg i.value = .ok (-i.value) :=
    Operand.checked_eq_ok_iff.2 ⟨h.move hop, rfl⟩
  simp only [step, Instruction.displacement]
  cases hop : i.opcode with
  | left => simp [hmove hop, straight, Written.ok]
  | div => simp [h.division hop, straight, Written.ok]
  | scanRight | scanLeft | printRun => simp [hop] at hpattern
  | _ => exact ⟨_, rfl⟩

/-- What LLVM code expresses moves by less than would overflow. -/
theorem accepts_of_expresses {i : Instruction} (h : Target.Expresses .llvm i) : Accepts i := by
  obtain ⟨hright, hleft, hprint⟩ := h.not_pattern (by decide)
  refine ⟨by simp [hright, hleft, hprint], h.division, fun hop => ?_⟩
  have hmove := h.move (.inr hop)
  unfold Operand.InRange Operand.least Operand.greatest
  omega

/-- What the format remembers about blocks are the open loops. -/
theorem keepsStack (options : EmitOptions) : (plainEmitter options).KeepsStack State.loops := by
  constructor
  · intro s s' i hop hi
    simp only [plainEmitter, step, hop, Written.ok] at hi
    cases hi
    exact ⟨_, rfl⟩
  · intro s s' i hop hi
    simp only [plainEmitter, step, hop, Written.ok] at hi
    cases hi
    cases hloops : s.loops <;> simp [closeLoop, hloops, State.locate, State.addNode]
  · intro s s' i hstart hend hi
    simp only [plainEmitter, step] at hi
    cases hop : i.opcode with
    | loopStart => exact absurd hop hstart
    | loopEnd => exact absurd hop hend
    | _ =>
      simp only [hop, straight, Written.ok, Written.fail] at hi
      repeat' split at hi
      all_goals cases hi <;> rfl

/-- **LLVM code is written in full.** Reads are not tallied here; the one
product is the size of the tape in bits. -/
theorem outcome_emit (options : EmitOptions) (hsize : options.memorySize * 32 < 2 ^ 64) {t : Tree}
    (ht : ∀ i ∈ t.code, Target.Expresses .llvm i) :
    (emission options t.code).outcome = .ok [] := by
  have hbits : options.width.bits ≤ 32 := by cases options.width <;> decide
  have hstart : (emitter options).start.result = .ok (State.locate {} (some Position.first)) := by
    rw [emitter, Emitter.start_withComments]
    rfl
  refine ((keepsStack options).nests.withComments options.comments _).outcome_emit hstart ?_ ?_
  · refine (Emitter.passes_withComments ..).2 (Emitter.passes_of_forall (fun i hi s => ?_) _)
    exact exists_step options.width s (accepts_of_expresses (ht i hi))
  · intro s hview
    rw [Emitter.finish_withComments]
    have hnone : s.loops = [] := hview
    simp [plainEmitter, finish, hnone, Size.mul_of_lt hbits hsize, Written.ok]

end Llvm

/-! ## 5. All targets -/

namespace Symbols

theorem exists_step (comments : Bool) {i : Instruction} (hi : Target.Expresses .symbols i) :
    ((emitter comments).step () i).result = .ok () := by
  obtain ⟨symbol, hsymbol⟩ := Option.ne_none_iff_exists'.1 (hi.symbol rfl)
  simp [emitter, hsymbol, Written.ok]

end Symbols

/-- How the writing of a stream ends that a target has all words for, and whose
blocks are properly nested: without a fault or a warning, unless it has more
reads than QBE's tally can count. -/
def Stream.fullOutcome (target : Target) (code : List Instruction) :
    Except EmitFault (List Warning) :=
  if target = .qbe ∧ Tally.greatest < reads code then .error (.overflow .add) else .ok []

/-- With few enough reads the outcome is the same for all targets. -/
theorem Stream.fullOutcome_of_reads_le (target : Target) {code : List Instruction}
    (h : reads code ≤ Tally.greatest) : fullOutcome target code = .ok [] := by
  rw [fullOutcome, if_neg fun hmany => absurd hmany.2 (Nat.not_lt_of_le h)]

/-- **A stream is written in full**, if its blocks are properly nested, the
target expresses each instruction, and the reads can be tallied. -/
theorem Stream.outcome_emission (target : Target) (options : EmitOptions)
    (hsize : options.memorySize * 32 < 2 ^ 64) {t : Tree}
    (ht : ∀ i ∈ t.code, target.Expresses i) :
    (Stream.emission target options t.code).outcome = fullOutcome target t.code := by
  cases target with
  | qbe =>
    simp only [fullOutcome, true_and]
    exact Qbe.outcome_emit options hsize ht
  | c => exact Dialect.outcome_emit options.comments (fun i _ => ⟨_, rfl⟩) ht
  | javaScript =>
    exact Dialect.outcome_emit options.comments (fun _ => JavaScript.exists_statement) ht
  | llvm => exact Llvm.outcome_emit options hsize ht
  | symbols =>
    have hpasses := Emitter.passes_of_forall
      (fun i hi _ => ⟨_, Symbols.exists_step options.comments (ht i hi)⟩) ()
    exact (Emitter.emit_of_passes rfl hpasses).2
  | listing => exact Dialect.outcome_emit options.comments (fun i _ => ⟨_, rfl⟩) ht

end TapeCompiler
