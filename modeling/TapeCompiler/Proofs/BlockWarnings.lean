/-
TapeCompiler.Proofs.BlockWarnings — what is reported about blocks left open.

Five formats close what a stream leaves open, and warn. They do not keep
the same books. The formats with indentation count every block: a loop and
a guard go one level in, their ends one level out. The formats with jumps
keep the open loops only, so a guard left open goes unreported there, and
the end of a guard is no substitute for the end of a loop.

`Emitter.Tracks` splits the argument as `Emitter.Nests` does, but for
streams that need not be nested: a format says how one instruction changes
what it remembers, and an overflow is the only way to stop. What is known
at the end is then a fold over the stream (`Emitter.Tracks.outcome_emit`).

* `Dialect.level_exitIndent`: while no beginning of the stream closes more
  than it opens, the depth is the number of open blocks.
* `Stream.length_openLoops`: the depth of the loops alone.

`Stream.warnings_of_open_blocks` puts these together for the five formats,
and `Stream.guard_left_open` shows where they part.
-/
import TapeCompiler.Proofs.EmitTotal
import TapeCompiler.Proofs.UnclosedLoops

namespace TapeCompiler

/-! ## 1. Open blocks -/

namespace Stream

/-- How many blocks a stream opens. -/
def opens (code : List Instruction) : Nat := code.countP (fun i => i.opcode.opensBlock)

/-- How many blocks a stream closes. -/
def closes (code : List Instruction) : Nat := code.countP (fun i => i.opcode.closesBlock)

/-- No beginning of the stream closes more blocks than it opens. -/
def ClosesOpened (code : List Instruction) : Prop :=
  ∀ k, closes (code.take k) ≤ opens (code.take k)

/-- The report about blocks of either kind. -/
def blockWarnings (code : List Instruction) : List Warning :=
  if closes code < opens code then [Warning.unbalanced] else []

/-- The report about loops alone. -/
def loopWarnings (code : List Instruction) : List Warning :=
  if openLoops 0 [] code = [] then [] else [Warning.unbalanced]

/-- How many loops are open behind one more instruction. -/
def loopDepth (depth : Nat) (i : Instruction) : Nat :=
  match i.opcode with
  | .loopStart => depth + 1
  | .loopEnd => depth - 1
  | _ => depth

theorem opens_cons (i : Instruction) (code : List Instruction) :
    opens (i :: code) = opens code + if i.opcode.opensBlock then 1 else 0 :=
  List.countP_cons ..

theorem closes_cons (i : Instruction) (code : List Instruction) :
    closes (i :: code) = closes code + if i.opcode.closesBlock then 1 else 0 :=
  List.countP_cons ..

/-- The open loops are as many as their depth. -/
theorem length_openLoops (code : List Instruction) (index : Nat) (stack : List Nat) :
    (openLoops index stack code).length = code.foldl loopDepth stack.length := by
  induction code generalizing index stack with
  | nil => rfl
  | cons i rest ih =>
    rw [List.foldl_cons]
    by_cases hstart : i.opcode = .loopStart
    · rw [openLoops_start hstart, ih]
      simp [loopDepth, hstart]
    by_cases hend : i.opcode = .loopEnd
    · rw [openLoops_end hend, ih]
      simp [loopDepth, hend]
    · rw [openLoops_outside ⟨hstart, hend⟩, ih]
      cases hop : i.opcode <;> simp_all [loopDepth]

theorem openLoops_eq_nil_iff {code : List Instruction} :
    openLoops 0 [] code = [] ↔ code.foldl loopDepth 0 = 0 := by
  rw [← List.length_eq_zero_iff, length_openLoops, List.length_nil]

/-- The two reports agree exactly if a loop is left open whenever a block is. -/
theorem loopWarnings_eq_blockWarnings_iff {code : List Instruction} :
    loopWarnings code = blockWarnings code ↔
      (openLoops 0 [] code ≠ [] ↔ closes code < opens code) := by
  unfold loopWarnings blockWarnings
  by_cases hloops : openLoops 0 [] code = [] <;> by_cases hblocks : closes code < opens code <;>
    simp [hloops, hblocks]

end Stream

/-! ## 2. What an emitter remembers -/

namespace Emitter

variable {σ α β : Type} {e : Emitter σ α} {view : σ → β} {change : β → Instruction → β}
  {accepts : Instruction → Prop}

/-- At each instruction of a kind the emitter stops with an overflow, or it
writes the instruction and changes what it remembers in a given way. -/
def Tracks (e : Emitter σ α) (view : σ → β) (change : β → Instruction → β)
    (accepts : Instruction → Prop) : Prop :=
  ∀ (s : σ) (i : Instruction), accepts i →
    (∃ cause, (e.step s i).result = .error (.overflow cause)) ∨
      ∃ s', (e.step s i).result = .ok s' ∧ view s' = change (view s) i

/-- Over a stream, the changes add up. -/
theorem Tracks.outcome_run (h : e.Tracks view change accepts) {code : List Instruction}
    (hcode : ∀ i ∈ code, accepts i) (done : Array α) (s : σ) :
    (∃ cause, (e.run done s code).outcome = .error (.overflow cause)) ∨
      ∃ s', (e.run done s code).outcome = (e.finish s').result ∧
        view s' = code.foldl change (view s) := by
  induction code generalizing done s with
  | nil => exact .inr ⟨s, rfl, rfl⟩
  | cons i rest ih =>
    rw [List.forall_mem_cons] at hcode
    rcases h s i hcode.1 with ⟨cause, hfault⟩ | ⟨s', hok, hview⟩
    · exact .inl ⟨cause, by simp [run, hfault]⟩
    · rw [run_cons_of_ok hok, List.foldl_cons, ← hview]
      exact ih hcode.2 _ s'

theorem Tracks.outcome_emit (h : e.Tracks view change accepts) {s : σ}
    (hstart : e.start.result = .ok s) {code : List Instruction} (hcode : ∀ i ∈ code, accepts i)
    (hfits : ∀ cause, (e.emit code).outcome ≠ .error (.overflow cause)) :
    ∃ s', (e.emit code).outcome = (e.finish s').result ∧ view s' = code.foldl change (view s) := by
  simp only [emit, hstart] at hfits ⊢
  rcases h.outcome_run hcode e.start.pieces.toArray s with ⟨cause, hfault⟩ | hrun
  · exact absurd hfault (hfits cause)
  · exact hrun

theorem Tracks.withComments (h : e.Tracks view change accepts) (on : Bool)
    (comment : σ → Instruction → α) : (e.withComments on comment).Tracks view change accepts := by
  intro s i hi
  rw [result_withComments]
  exact h s i hi

/-- A stack of the open loops is as high as the loops are deep. -/
theorem KeepsStack.length_eq {γ : Type} {loops : σ → List γ} (h : e.KeepsStack loops) {s s' : σ}
    {i : Instruction} (hi : (e.step s i).result = .ok s') :
    (loops s').length = Stream.loopDepth (loops s).length i := by
  by_cases hstart : i.opcode = .loopStart
  · obtain ⟨entry, hpushed⟩ := h.opens hstart hi
    simp [Stream.loopDepth, hstart, hpushed]
  by_cases hend : i.opcode = .loopEnd
  · simp [Stream.loopDepth, hend, h.closes hend hi]
  · rw [h.others hstart hend hi]
    cases hop : i.opcode <;> simp_all [Stream.loopDepth]

theorem KeepsStack.tracks {γ : Type} {loops : σ → List γ} (h : e.KeepsStack loops)
    (hstep : ∀ s i, accepts i → (∃ cause, (e.step s i).result = .error (.overflow cause)) ∨
      ∃ s', (e.step s i).result = .ok s') :
    e.Tracks (fun s => (loops s).length) Stream.loopDepth accepts := by
  intro s i hi
  exact (hstep s i hi).imp_right fun ⟨s', hs'⟩ => ⟨s', hs', h.length_eq hs'⟩

end Emitter

/-- The formats that know blocks have words for the instruction. -/
def Instruction.BlockExpressible (i : Instruction) : Prop :=
  i.opcode ∉ [.scanRight, .scanLeft, .printRun] ∧ (i.opcode = .div → i.offset = 0)

/-! ## 3. Formats with indentation -/

namespace Dialect

/-- The depth goes with the blocks opened and closed, as long as it need not
go below the margin. -/
theorem level_exitIndent {code : List Instruction} {indent : Indent}
    (h : ∀ k, Stream.closes (code.take k) ≤ indent.level + Stream.opens (code.take k)) :
    (code.foldl exitIndent indent).level + Stream.closes code =
      indent.level + Stream.opens code := by
  induction code generalizing indent with
  | nil => rfl
  | cons i rest ih =>
    rw [List.foldl_cons, Stream.opens_cons, Stream.closes_cons]
    have hfirst := h 1
    simp only [List.take_succ_cons, List.take_zero, Stream.opens_cons, Stream.closes_cons] at hfirst
    have hlevel : (exitIndent indent i).level + (if i.opcode.closesBlock then 1 else 0) =
        indent.level + if i.opcode.opensBlock then 1 else 0 := by
      have hempty : Stream.opens [] = 0 ∧ Stream.closes [] = 0 := ⟨rfl, rfl⟩
      cases hop : i.opcode <;>
        simp_all [exitIndent, Opcode.opensBlock, Opcode.closesBlock, Indent.deeper,
          Indent.shallower]
    have hrest : ∀ k, Stream.closes (rest.take k) ≤
        (exitIndent indent i).level + Stream.opens (rest.take k) := by
      intro k
      have hk := h (k + 1)
      rw [List.take_succ_cons, Stream.opens_cons, Stream.closes_cons] at hk
      omega
    have := ih hrest
    omega

variable {d : Dialect} {accepts : Instruction → Prop}

theorem tracks (h : ∀ i, accepts i → ∃ lines, d.statement i = some lines) :
    d.plainEmitter.Tracks id exitIndent accepts := by
  intro indent i hi
  obtain ⟨lines, hlines⟩ := h i hi
  exact .inr ⟨exitIndent indent i, by simp [plainEmitter, hlines, Written.ok], rfl⟩

/-- A format with indentation reports blocks of both kinds. -/
theorem outcome_blocks (comments : Bool)
    (h : ∀ i, accepts i → ∃ lines, d.statement i = some lines) {code : List Instruction}
    (hcode : ∀ i ∈ code, accepts i) (hopened : Stream.ClosesOpened code)
    (hfits : ∀ cause, ((d.emitter comments).emit code).outcome ≠ .error (.overflow cause)) :
    ((d.emitter comments).emit code).outcome = .ok (Stream.blockWarnings code) := by
  have hstart : (d.emitter comments).start.result = .ok base := by
    rw [emitter, Emitter.start_withComments]
    rfl
  obtain ⟨indent, houtcome, hindent⟩ :=
    ((tracks h).withComments comments d.comment).outcome_emit hstart hcode hfits
  have hlevel : (code.foldl exitIndent base).level + Stream.closes code =
      base.level + Stream.opens code :=
    level_exitIndent fun k => Nat.le_trans (hopened k) (Nat.le_add_left _ _)
  have hbase : base.level = 1 := rfl
  have habove : indent.level > base.level ↔ Stream.closes code < Stream.opens code := by
    rw [← show code.foldl exitIndent base = indent from hindent.symm]
    omega
  rw [emitter, houtcome, Emitter.finish_withComments]
  simp only [plainEmitter, Written.ok, warnings, Stream.blockWarnings, habove]

end Dialect

theorem JavaScript.exists_statement_of_blockExpressible {i : Instruction}
    (h : i.BlockExpressible) : ∃ lines, JavaScript.statement? i = some lines := by
  obtain ⟨hpattern, -⟩ := h
  unfold JavaScript.statement?
  cases hop : i.opcode <;> simp_all
  repeat' split
  all_goals exact ⟨_, rfl⟩

/-! ## 4. Formats with jumps -/

/-- The report of a format that keeps a stack of loops. -/
theorem Stream.loopWarnings_eq {α : Type} {code : List Instruction} {loops : List α}
    (h : loops.length = code.foldl loopDepth 0) :
    (if loops.isEmpty then [] else [Warning.unbalanced]) = loopWarnings code := by
  have hempty : loops.isEmpty = true ↔ openLoops 0 [] code = [] := by
    rw [openLoops_eq_nil_iff, ← h, List.isEmpty_iff, List.length_eq_zero_iff]
  unfold loopWarnings
  by_cases hloops : openLoops 0 [] code = []
  · rw [if_pos hloops, if_pos (hempty.2 hloops)]
  · rw [if_neg hloops, if_neg (mt hempty.1 hloops)]

namespace Qbe

theorem scaled_cases (w : Width) (distance : Int) :
    (∃ cause, scaled w distance = .error (.overflow cause)) ∨
      ∃ bytes, scaled w distance = .ok bytes := by
  unfold scaled
  cases Operand.mul distance w.bytes with
  | error cause => exact .inl ⟨cause, rfl⟩
  | ok bytes => exact .inr ⟨bytes, rfl⟩

/-- An instruction is written, or a number overflows. -/
theorem step_cases (w : Width) (s : State) {i : Instruction} (hi : i.BlockExpressible) :
    (∃ cause, (step w s i).result = .error (.overflow cause)) ∨
      ∃ s', (step w s i).result = .ok s' := by
  obtain ⟨hpattern, hdiv⟩ := hi
  have hmove := scaled_cases w i.value
  have hoffset := scaled_cases w i.offset
  unfold step
  cases hop : i.opcode with
  | read =>
    by_cases hroom : i.value.toNat ≤ Tally.greatest - s.reads <;>
      simp [putReads, hroom, Written.ok, Written.fail]
  | right | left =>
    rcases hmove with ⟨cause, h⟩ | ⟨bytes, h⟩ <;> simp [h, Written.ok, Written.fail]
  | mul =>
    rcases hoffset with ⟨cause, h⟩ | ⟨bytes, h⟩ <;> simp only [h] <;> split <;>
      simp [Written.ok, Written.fail]
  | store =>
    rcases hoffset with ⟨cause, h⟩ | ⟨bytes, h⟩ <;> simp only [h] <;> split <;>
      simp [Written.ok, Written.fail]
  | _ => simp_all [Written.ok]

theorem tracks (options : EmitOptions) :
    (plainEmitter options).Tracks (fun s => s.openLoops.length) Stream.loopDepth
      Instruction.BlockExpressible :=
  (keepsStack options).tracks fun s _ hi => step_cases options.width s hi

/-- QBE code comes with a report about loops alone. -/
theorem outcome_loops (options : EmitOptions) {code : List Instruction}
    (hcode : ∀ i ∈ code, i.BlockExpressible)
    (hfits : ∀ cause, (emission options code).outcome ≠ .error (.overflow cause)) :
    (emission options code).outcome = .ok (Stream.loopWarnings code) := by
  have hstart : (emitter options).start.result = .ok {} := by
    cases hsize : Size.mul options.memorySize options.width.bytes with
    | error cause =>
      refine absurd ?_ (hfits cause)
      simp [emission, Emitter.emit, emitter, plainEmitter, header, hsize, Written.fail]
    | ok bytes =>
      simp [emitter, plainEmitter, header, hsize, Written.ok]
  obtain ⟨s, houtcome, hloops⟩ :=
    ((tracks options).withComments options.comments _).outcome_emit hstart hcode hfits
  rw [emission, emitter, houtcome, Emitter.finish_withComments]
  simp only [plainEmitter, finish, Written.ok]
  rw [Stream.loopWarnings_eq hloops]

end Qbe

namespace Llvm

/-- An instruction is written, or a number overflows. -/
theorem step_cases (w : Width) (s : State) {i : Instruction} (hi : i.BlockExpressible) :
    (∃ cause, (step w s i).result = .error (.overflow cause)) ∨
      ∃ s', (step w s i).result = .ok s' := by
  obtain ⟨hpattern, hdiv⟩ := hi
  unfold step
  cases hop : i.opcode with
  | right | left =>
    cases hdisplacement : i.displacement with
    | error cause => exact .inl ⟨cause, rfl⟩
    | ok distance => exact .inr ⟨_, rfl⟩
  | div =>
    simp only [if_pos (hdiv hop)]
    exact .inr ⟨_, rfl⟩
  | scanRight | scanLeft | printRun => simp [hop] at hpattern
  | _ => exact .inr ⟨_, rfl⟩

theorem tracks (options : EmitOptions) :
    (plainEmitter options).Tracks (fun s => s.loops.length) Stream.loopDepth
      Instruction.BlockExpressible :=
  (keepsStack options).tracks fun s _ hi => step_cases options.width s hi

/-- LLVM code comes with a report about loops alone. -/
theorem outcome_loops (options : EmitOptions) {code : List Instruction}
    (hcode : ∀ i ∈ code, i.BlockExpressible)
    (hfits : ∀ cause, (emission options code).outcome ≠ .error (.overflow cause)) :
    (emission options code).outcome = .ok (Stream.loopWarnings code) := by
  have hstart : (emitter options).start.result = .ok (State.locate {} (some Position.first)) := by
    rw [emitter, Emitter.start_withComments]
    rfl
  obtain ⟨s, houtcome, hloops⟩ :=
    ((tracks options).withComments options.comments _).outcome_emit hstart hcode hfits
  rw [emission, emitter, houtcome, Emitter.finish_withComments] at hfits ⊢
  simp only [plainEmitter, finish] at hfits ⊢
  cases hsize : Size.mul options.memorySize options.width.bits with
  | error cause =>
    simp only [hsize, Written.fail] at hfits
    exact absurd rfl (hfits cause)
  | ok tapeBits =>
    simp only [Written.ok]
    rw [Stream.loopWarnings_eq hloops]

end Llvm

/-! ## 5. Five formats -/

/-- The target keeps a stack of the open loops, and no other books. -/
def Target.KeepsLoops (target : Target) : Prop := target ∈ [.qbe, .llvm]

instance Target.decidableKeepsLoops (target : Target) : Decidable target.KeepsLoops :=
  inferInstanceAs (Decidable (_ ∈ _))

/-- **Reports about open blocks.** Unless something overflows, a format that
knows blocks writes the stream. With indentation it reports that more blocks
were opened than closed; with jumps it reports that a loop was not closed.
So the formats agree exactly on the streams that leave a loop open whenever
they leave a block open, and conversely. -/
theorem Stream.warnings_of_open_blocks (target : Target)
    (htarget : target ∈ [.qbe, .c, .javaScript, .llvm, .listing]) (options : EmitOptions)
    {code : List Instruction} (hcode : ∀ i ∈ code, i.BlockExpressible)
    (hopened : Stream.ClosesOpened code)
    (hfits : ∀ cause, (Stream.emission target options code).outcome ≠ .error (.overflow cause)) :
    (Stream.emission target options code).outcome =
        .ok (if target.KeepsLoops then loopWarnings code else blockWarnings code) ∧
      ((Stream.emission target options code).outcome = .ok (blockWarnings code) ↔
        (target.KeepsLoops → (openLoops 0 [] code ≠ [] ↔ closes code < opens code))) := by
  have houtcome : (Stream.emission target options code).outcome =
      .ok (if target.KeepsLoops then loopWarnings code else blockWarnings code) := by
    cases target with
    | qbe => exact Qbe.outcome_loops options hcode hfits
    | c => exact Dialect.outcome_blocks options.comments (fun i _ => ⟨_, rfl⟩) hcode hopened hfits
    | javaScript =>
      exact Dialect.outcome_blocks options.comments
        (fun _ => JavaScript.exists_statement_of_blockExpressible) hcode hopened hfits
    | llvm => exact Llvm.outcome_loops options hcode hfits
    | symbols => simp at htarget
    | listing =>
      exact Dialect.outcome_blocks options.comments (fun i _ => ⟨_, rfl⟩) hcode hopened hfits
  refine ⟨houtcome, ?_⟩
  rw [houtcome, Except.ok.injEq]
  by_cases hloops : target.KeepsLoops
  · rw [if_pos hloops, loopWarnings_eq_blockWarnings_iff]
    exact ⟨fun h _ => h, fun h => h hloops⟩
  · rw [if_neg hloops]
    exact ⟨fun _ h => absurd h hloops, fun _ => rfl⟩

/-- A guard is left open inside a loop, which is left open too. -/
theorem Stream.warnings_of_open_blocks_nested :
    (Stream.emission .llvm {} [⟨.loopStart, 1, 0, none⟩, ⟨.guard, 2, 0, none⟩]).outcome =
        .ok [Warning.unbalanced] ∧
      Stream.blockWarnings [⟨.loopStart, 1, 0, none⟩, ⟨.guard, 2, 0, none⟩] =
        [Warning.unbalanced] := by
  have hcode : ∀ i ∈ ([⟨.loopStart, 1, 0, none⟩, ⟨.guard, 2, 0, none⟩] : List Instruction),
      i.BlockExpressible := by
    simp [Instruction.BlockExpressible]
  have hopened : Stream.ClosesOpened [⟨.loopStart, 1, 0, none⟩, ⟨.guard, 2, 0, none⟩] := by
    intro k
    rcases k with _ | _ | k <;> simp [closes, opens, Opcode.opensBlock, Opcode.closesBlock]
  have hfits : ∀ cause, (Stream.emission .llvm {} [⟨.loopStart, 1, 0, none⟩,
      ⟨.guard, 2, 0, none⟩]).outcome ≠ .error (.overflow cause) := by
    intro cause h
    cases h
  have h := Stream.warnings_of_open_blocks .llvm (by decide) {} hcode hopened hfits
  exact ⟨h.1, rfl⟩

/-- **A guard left open** is reported by the formats with indentation, and
not by those with jumps: there its label is named and never written. The end
of a guard is counted against a loop by the former only. -/
theorem Stream.guard_left_open :
    Stream.blockWarnings [⟨.guard, 1, 0, none⟩] = [Warning.unbalanced] ∧
      (Stream.emission .c {} [⟨.guard, 1, 0, none⟩]).outcome = .ok [Warning.unbalanced] ∧
      (Stream.emission .qbe {} [⟨.guard, 1, 0, none⟩]).outcome = .ok [] ∧
      (Stream.emission .llvm {} [⟨.guard, 1, 0, none⟩]).outcome = .ok [] ∧
      Stream.blockWarnings [⟨.loopStart, 1, 0, none⟩, ⟨.label, 1, 0, none⟩] = [] ∧
      (Stream.emission .qbe {} [⟨.loopStart, 1, 0, none⟩, ⟨.label, 1, 0, none⟩]).outcome =
        .ok [Warning.unbalanced] :=
  ⟨rfl, rfl, rfl, rfl, rfl, rfl⟩

end TapeCompiler
