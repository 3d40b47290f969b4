/-
TapeCompiler.Proofs.LlvmLayout — what each instruction adds to LLVM code.

The code of an instruction that is no bracket is a row of operations at one
place (`Llvm.Straight`): they number their temporaries on from the last one,
read only what was assigned among them, and do not branch. A bracket adds
branches and labels. `Llvm.Step` lists all that a step can do, and
`Llvm.step_of_ok` says that the list is complete. All that is proved about
the generated function goes through its cases.
-/
import TapeCompiler.Proofs.Pieces
import TapeCompiler.Proofs.RoundTrip

namespace TapeCompiler

namespace Llvm

/-! ## 1. Operations -/

/-- The temporaries in a value. -/
def Value.temps : Value → List Temp
  | .temp t => [t]
  | .const _ => []

namespace Op

/-- The temporary that an operation assigns. -/
def assigned? : Op → Option Temp
  | .loadPointer dst | .element dst _ _ | .load dst _ | .binary _ dst _ _ | .isNonzero dst _
  | .isNegative dst _ | .widen dst _ | .narrow dst _ | .select dst _ _ _ | .putchar dst _
  | .getchar dst => some dst
  | _ => none

/-- The temporaries that an operation reads. -/
def used : Op → List Temp
  | .storePointer src | .element _ src _ | .load _ src | .isNonzero _ src | .isNegative _ src
  | .widen _ src | .narrow _ src | .putchar _ src | .branchIf src _ _ => [src]
  | .store src addr => src.temps ++ [addr]
  | .binary _ _ lhs rhs => lhs :: rhs.temps
  | .select _ test yes no => [test, yes, no]
  | _ => []

/-- The labels that an operation may go to. -/
def targets : Op → List Label
  | .branch target | .branchBack target _ => [target]
  | .branchIf _ yes no => [yes, no]
  | _ => []

/-- The operation ends a block. -/
def endsBlock : Op → Bool
  | .branch _ | .branchBack _ _ | .branchIf _ _ _ | .ret => true
  | _ => false

/-- The nodes that an operation refers to, its place aside. -/
def refs : Op → List NodeId
  | .declarePointer var => [var]
  | .branchBack _ info => [info]
  | _ => []

end Op

/-! ## 2. Rows of operations -/

/-- Each operation reads temporaries in `live`, or assigned before it. -/
def ReadsLive (live : List Temp) : List Op → Prop
  | [] => True
  | op :: rest => op.used ⊆ live ∧ ReadsLive (op.assigned?.toList ++ live) rest

/-- Operations behind `t` temporaries, and how many temporaries there are
behind them: they assign the next ones in turn, and read no others. -/
structure Numbered (t : Nat) (code : List Op × Nat) : Prop where
  le : t ≤ code.2
  assigned : code.1.filterMap Op.assigned? = List.range' (t + 1) (code.2 - t)
  reads : ReadsLive [] code.1

/-- The operations stay in one block, and refer to no node. -/
structure Straight (t : Nat) (code : List Op × Nat) : Prop extends Numbered t code where
  inside : ∀ op ∈ code.1, op.endsBlock = false ∧ op.refs = []

theorem ReadsLive.mono {live live' : List Temp} {ops : List Op} (h : ReadsLive live ops)
    (hle : live ⊆ live') : ReadsLive live' ops := by
  induction ops generalizing live live' with
  | nil => trivial
  | cons op rest ih =>
    refine ⟨fun t ht => hle (h.1 ht), ih h.2 fun t ht => ?_⟩
    simp only [List.mem_append] at ht ⊢
    exact ht.imp id (fun ht => hle ht)

/-- A row that reads only what it assigned itself may stand behind any other. -/
theorem ReadsLive.append {live : List Temp} {ops ops' : List Op} (h : ReadsLive live ops)
    (h' : ReadsLive [] ops') : ReadsLive live (ops ++ ops') := by
  induction ops generalizing live with
  | nil => exact h'.mono (List.nil_subset _)
  | cons op rest ih => exact ⟨h.1, ih h.2⟩

/-- Rows in a row number their temporaries on. -/
theorem Straight.append {t t₁ t₂ : Nat} {ops ops' : List Op} (h : Straight t (ops, t₁))
    (h' : Straight t₁ (ops', t₂)) : Straight t (ops ++ ops', t₂) := by
  have hle : t ≤ t₁ := h.le
  have hle' : t₁ ≤ t₂ := h'.le
  refine ⟨⟨Nat.le_trans hle hle', ?_, h.reads.append h'.reads⟩, ?_⟩
  · have hlast : t₁ + 1 = t + 1 + 1 * (t₁ - t) := by omega
    have htotal : t₂ - t = (t₁ - t) + (t₂ - t₁) := by omega
    have hfirst : ops.filterMap Op.assigned? = List.range' (t + 1) (t₁ - t) := h.assigned
    have hsecond : ops'.filterMap Op.assigned? = List.range' (t₁ + 1) (t₂ - t₁) := h'.assigned
    rw [List.filterMap_append, hfirst, hsecond, hlast, List.range'_append, htotal]
  · exact List.forall_mem_append.2 ⟨h.inside, h'.inside⟩

/-- A row that is repeated goes on numbering. -/
theorem straight_repeat {used : Nat} {once : Temp → List Op}
    (h : ∀ t, Straight t (once t, t + used)) (count t : Nat) :
    Straight t (repeatOps count used once t) := by
  unfold repeatOps
  induction count with
  | zero => simpa using ⟨⟨Nat.le_refl t, by simp, trivial⟩, by simp⟩
  | succ count ih =>
    have hlast := h (t + count * used)
    rw [Nat.add_assoc, ← Nat.succ_mul] at hlast
    rw [List.range_succ, List.flatMap_append, List.flatMap_singleton]
    exact ih.append hlast

section Rows

variable (w : Width) (t : Nat) (n offset : Int)

/-- The address of the current cell takes one temporary, and one more with an
offset. -/
theorem straight_address : Straight t (addressOps t offset) := by
  unfold addressOps
  split
  · exact ⟨⟨by simp, by simp [Op.assigned?], by simp [ReadsLive, Op.used]⟩,
      by simp [Op.endsBlock, Op.refs]⟩
  · refine ⟨⟨by simp, ?_, by simp [ReadsLive, Op.used, Op.assigned?]⟩,
      by simp [Op.endsBlock, Op.refs]⟩
    simp [Op.assigned?, List.range'_succ]

theorem straight_add : Straight t (addOps w t n) := by
  refine ⟨⟨by simp [addOps], by simp [addOps, Op.assigned?, List.range'_succ], ?_⟩, ?_⟩
  · simp [addOps, ReadsLive, Op.used, Op.assigned?, Value.temps]
  · simp [addOps, Op.endsBlock, Op.refs]

theorem straight_div : Straight t (divOps w t n) := by
  refine ⟨⟨by simp [divOps], by simp [divOps, Op.assigned?, List.range'_succ], ?_⟩, ?_⟩
  · simp [divOps, ReadsLive, Op.used, Op.assigned?, Value.temps]
  · simp [divOps, Op.endsBlock, Op.refs]

theorem straight_mul : Straight t (mulOps w t n offset) := by
  unfold mulOps
  split
  · refine ⟨⟨by simp, by simp [Op.assigned?], ?_⟩, by simp [Op.endsBlock, Op.refs]⟩
    simp [ReadsLive, Op.used, Op.assigned?, Value.temps]
  · refine ⟨⟨by simp, by simp [Op.assigned?, List.range'_succ], ?_⟩,
      by simp [Op.endsBlock, Op.refs]⟩
    simp [ReadsLive, Op.used, Op.assigned?, Value.temps]

/-- What follows the computation of an address may read it. -/
theorem straight_at_address {last : Op} (hassigned : last.assigned? = none)
    (hused : last.used ⊆ [(addressOps t offset).2])
    (hinside : last.endsBlock = false ∧ last.refs = []) :
    Straight t ((addressOps t offset).1 ++ [last], (addressOps t offset).2) := by
  have haddress := straight_address t offset
  refine ⟨⟨haddress.le, ?_, ?_⟩, ?_⟩
  · simp only [List.filterMap_append, haddress.assigned, List.filterMap_cons, hassigned,
      List.filterMap_nil, List.append_nil]
  · -- the address is the last temporary assigned
    unfold addressOps at hused ⊢
    split at hused
    · rename_i hzero
      rw [if_pos hzero]
      exact ⟨by simp [Op.used], hused, trivial⟩
    · rename_i hzero
      rw [if_neg hzero]
      refine ⟨by simp [Op.used], by simp [Op.used, Op.assigned?], fun u hu => ?_, trivial⟩
      rw [List.mem_singleton.1 (hused hu)]
      simp [Op.assigned?]
  · exact List.forall_mem_append.2 ⟨haddress.inside, by simpa using hinside⟩

theorem straight_move : Straight t (moveOps t offset) := by
  have hused : (Op.storePointer (addressOps t offset).2).used ⊆ [(addressOps t offset).2] :=
    List.Subset.refl _
  exact straight_at_address t offset rfl hused ⟨rfl, rfl⟩

theorem straight_store : Straight t (storeOps w t n offset) := by
  have hused : (Op.store (.const (constant w n)) (addressOps t offset).2).used ⊆
      [(addressOps t offset).2] := List.Subset.refl _
  exact straight_at_address t offset rfl hused ⟨rfl, rfl⟩

theorem straight_write : Straight t (writeOps w t, t + writeTemps w) := by
  cases w <;> (refine ⟨⟨by simp, ?_, ?_⟩, ?_⟩)
  all_goals
    simp [writeOps, writeTemps, ReadsLive, Op.used, Op.assigned?, Op.endsBlock, Op.refs,
      List.range'_succ]

theorem straight_read : Straight t (readOps w t, t + readTemps w) := by
  cases w <;> (refine ⟨⟨by simp, ?_, ?_⟩, ?_⟩)
  all_goals
    simp [readOps, readTemps, ReadsLive, Op.used, Op.assigned?, Op.endsBlock, Op.refs,
      List.range'_succ, Value.temps]

theorem numbered_branch (nonzero zero : Label) : Numbered t (branchOps t nonzero zero) := by
  refine ⟨by simp [branchOps], by simp [branchOps, Op.assigned?, List.range'_succ], ?_⟩
  simp [branchOps, ReadsLive, Op.used, Op.assigned?]

end Rows

/-! ## 3. Steps -/

/-- What a step can write, and the state behind it. -/
inductive Step (s : State) (i : Instruction) : List Line → State → Prop where
  /-- An instruction that is no bracket. -/
  | plain (hplain : i.Plain) {code : List Op × Temp} (hcode : Straight s.temps code) :
      Step s i (code.1.map (.op · s.nextNode)) { s.locate i.position with temps := code.2 }
  | loopStart (hop : i.opcode = .loopStart) : Step s i (openLoop s i).1 (openLoop s i).2
  | loopEnd (hop : i.opcode = .loopEnd) {loop : LoopScope} {outer : List LoopScope}
      (hloops : s.loops = loop :: outer) :
      Step s i (closeLoop s i.position).1 (closeLoop s i.position).2
  /-- The end of no loop. -/
  | stray (hop : i.opcode = .loopEnd) (hloops : s.loops = []) : Step s i [] s
  | guard (hop : i.opcode = .guard) :
      Step s i
        ((branchOps s.temps (.guardBody i.value) (.guardEnd i.value)).1.map (.op · s.nextNode)
          ++ labelLines (.guardBody i.value))
        { s.locate i.position with temps := s.temps + 3 }
  | label (hop : i.opcode = .label) :
      Step s i
        (.op (.branch (.guardEnd i.value)) s.nextNode :: labelLines (.guardEnd i.value))
        (s.locate i.position)

/-- An instruction whose code is straight is plain. -/
theorem step_straight {s s' : State} {i : Instruction} {code : Temp → List Op × Temp}
    (hplain : i.Plain) (hcode : Straight s.temps (code s.temps))
    (h : (straight s i code).result = .ok s') : Step s i (straight s i code).pieces s' := by
  cases h
  exact .plain hplain hcode

/-- **All that a step can do.** -/
theorem step_of_ok {w : Width} {s s' : State} {i : Instruction}
    (h : (step w s i).result = .ok s') : Step s i (step w s i).pieces s' := by
  have hplain (hopens : i.opcode.opensBlock = false) (hcloses : i.opcode.closesBlock = false) :
      i.Plain := ⟨hopens, hcloses⟩
  unfold step at h ⊢
  cases hop : i.opcode <;> simp only [hop] at h ⊢ <;>
    simp only [hop, Opcode.opensBlock, Opcode.closesBlock, forall_const] at hplain
  case add => exact step_straight hplain (straight_add ..) h
  case sub => exact step_straight hplain (straight_add ..) h
  case right | left =>
    cases hdisplacement : i.displacement with
    | error cause =>
      rw [hdisplacement] at h
      cases h
    | ok distance =>
      rw [hdisplacement] at h
      exact step_straight hplain (straight_move ..) h
  case write => exact step_straight hplain (straight_repeat (straight_write w) ..) h
  case read => exact step_straight hplain (straight_repeat (straight_read w) ..) h
  case loopStart =>
    cases h
    exact .loopStart hop
  case loopEnd =>
    cases h
    cases hloops : s.loops with
    | nil =>
      have hnothing : closeLoop s i.position = ([], s) := by simp [closeLoop, hloops]
      rw [hnothing]
      exact .stray hop hloops
    | cons loop outer => exact .loopEnd hop hloops
  case mul => exact step_straight hplain (straight_mul ..) h
  case div =>
    split at h
    · rename_i hoffset
      rw [if_pos hoffset]
      exact step_straight hplain (straight_div ..) h
    · cases h
  case guard =>
    cases h
    exact .guard hop
  case label =>
    cases h
    exact .label hop
  case store => exact step_straight hplain (straight_store ..) h
  case scanRight | scanLeft | printRun => cases h

namespace Step

variable {s s' : State} {i : Instruction} {lines : List Line} (h : Step s i lines s')

include h

/-- An instruction that is no bracket writes a straight row, all of it at one
place. -/
theorem of_plain (hplain : i.Plain) :
    ∃ code, Straight s.temps code ∧ lines = code.1.map (.op · s.nextNode) ∧
      s' = { s.locate i.position with temps := code.2 } := by
  obtain ⟨hopens, hcloses⟩ := hplain
  cases h with
  | plain _ hcode => exact ⟨_, hcode, rfl, rfl⟩
  | loopStart hop | guard hop => simp [hop, Opcode.opensBlock] at hopens
  | loopEnd hop | stray hop | label hop => simp [hop, Opcode.closesBlock] at hcloses

theorem of_loopStart (hop : i.opcode = .loopStart) :
    lines = (openLoop s i).1 ∧ s' = (openLoop s i).2 := by
  cases h with
  | loopStart => exact ⟨rfl, rfl⟩
  | plain hplain => simp [Instruction.Plain, hop, Opcode.opensBlock] at hplain
  | loopEnd hop' | stray hop' | guard hop' | label hop' => simp [hop] at hop'

theorem of_loopEnd (hop : i.opcode = .loopEnd) :
    lines = (closeLoop s i.position).1 ∧ s' = (closeLoop s i.position).2 := by
  cases h with
  | loopEnd => exact ⟨rfl, rfl⟩
  | stray _ hloops => simp [closeLoop, hloops]
  | plain hplain => simp [Instruction.Plain, hop, Opcode.closesBlock] at hplain
  | loopStart hop' | guard hop' | label hop' => simp [hop] at hop'

/-- A guard is a branch with the label of its body behind it. -/
theorem of_guard (hop : i.opcode = .guard) :
    lines = (branchOps s.temps (.guardBody i.value) (.guardEnd i.value)).1.map (.op · s.nextNode)
        ++ labelLines (.guardBody i.value) ∧
      s' = { s.locate i.position with temps := s.temps + 3 } := by
  cases h with
  | guard => exact ⟨rfl, rfl⟩
  | plain hplain => simp [Instruction.Plain, hop, Opcode.opensBlock] at hplain
  | loopStart hop' | loopEnd hop' | stray hop' | label hop' => simp [hop] at hop'

/-- The end of a guarded block branches to its own label. -/
theorem of_label (hop : i.opcode = .label) :
    lines = .op (.branch (.guardEnd i.value)) s.nextNode :: labelLines (.guardEnd i.value) ∧
      s' = s.locate i.position := by
  cases h with
  | label => exact ⟨rfl, rfl⟩
  | plain hplain => simp [Instruction.Plain, hop, Opcode.closesBlock] at hplain
  | loopStart hop' | loopEnd hop' | stray hop' | guard hop' => simp [hop] at hop'

end Step

/-! ## 4. Loops left open -/

/-- Closing a loop leaves the ones around it. -/
theorem loops_closeLoop {s : State} {loop : LoopScope} {outer : List LoopScope}
    (h : s.loops = loop :: outer) (position : Option Position) :
    (closeLoop s position).2.loops = outer := by
  simp [closeLoop, h, State.locate, State.addNode]

/-- Closes as many loops as are given, behind some lines. -/
def closeEach (written : List Line × State) (loops : List LoopScope) : List Line × State :=
  loops.foldl (fun (lines, s) _ => let (more, s) := closeLoop s none; (lines ++ more, s)) written

/-- Lines that were written before stay in front. -/
theorem closeEach_append (before lines : List Line) (s : State) (loops : List LoopScope) :
    closeEach (before ++ lines, s) loops =
      (before ++ (closeEach (lines, s) loops).1, (closeEach (lines, s) loops).2) := by
  induction loops generalizing lines s with
  | nil => rfl
  | cons loop loops ih =>
    simp only [closeEach, List.foldl_cons, List.append_assoc] at ih ⊢
    exact ih _ _

theorem closeAll_nil {s : State} (h : s.loops = []) : closeAll s = ([], s) := by
  simp [closeAll, h]

/-- The innermost loop is closed first. -/
theorem closeAll_cons {s : State} {loop : LoopScope} {outer : List LoopScope}
    (h : s.loops = loop :: outer) :
    closeAll s =
      ((closeLoop s none).1 ++ (closeAll (closeLoop s none).2).1,
        (closeAll (closeLoop s none).2).2) := by
  have hall (s : State) : closeAll s = closeEach ([], s) s.loops := rfl
  have hrest := closeEach_append (closeLoop s none).1 [] (closeLoop s none).2 outer
  rw [List.append_nil] at hrest
  rw [hall, hall, h, loops_closeLoop h none, ← hrest]
  rfl

/-! ## 5. Streams -/

/-- The state before the first instruction. -/
def first : State := State.locate {} (some Position.first)

/-- The state before the `k`-th instruction. -/
def stateAt (options : EmitOptions) (code : List Instruction) (k : Nat) : State :=
  (emitter options).stateAfter first (code.take k)

/-- The lines of the `k`-th instruction, its comment among them. -/
def linesOf (options : EmitOptions) (code : List Instruction) (k : Nat) : List Line :=
  match code[k]? with
  | some i => ((emitter options).step (stateAt options code k) i).pieces
  | none => []

/-- The comment before an instruction, if there is one. -/
def comment (options : EmitOptions) (i : Instruction) : List Line :=
  if options.comments then [.comment i.describe] else []

section Streams

variable {options : EmitOptions} {code : List Instruction} {k : Nat} {i : Instruction}

/-- The comment comes before the code. -/
theorem pieces_step_emitter (s : State) (i : Instruction) :
    ((emitter options).step s i).pieces = comment options i ++ (step options.width s i).pieces := by
  unfold emitter Emitter.withComments comment
  split <;> rfl

/-- Comments have no part in the outcome. -/
theorem result_step_emitter (s : State) (i : Instruction) :
    ((emitter options).step s i).result = (step options.width s i).result :=
  Emitter.result_withComments ..

theorem linesOf_eq (hi : code[k]? = some i) :
    linesOf options code k =
      comment options i ++ (step options.width (stateAt options code k) i).pieces := by
  simp only [linesOf, hi, pieces_step_emitter]

theorem start_emitter : (emitter options).start = header options := by
  rw [emitter, Emitter.start_withComments]
  rfl

theorem finish_emitter : (emitter options).finish = finish options := by
  rw [emitter, Emitter.finish_withComments]
  rfl

/-- What is written of a stream whose instructions are all written. -/
theorem emission_of_passes (h : (emitter options).Passes first code) :
    (emission options code).pieces.toList =
        (header options).pieces ++ (emitter options).piecesOf first code
          ++ (finish options (stateAt options code code.length)).pieces ∧
      (emission options code).outcome =
        (finish options (stateAt options code code.length)).result := by
  have hstart : (emitter options).start.result = .ok first := by
    rw [start_emitter]
    rfl
  have hemit := Emitter.emit_of_passes hstart h
  rw [start_emitter, finish_emitter] at hemit
  rw [stateAt, List.take_length]
  exact hemit

/-- A line of the instructions is a line of one of them. -/
theorem mem_piecesOf_iff {line : Line} :
    line ∈ (emitter options).piecesOf first code ↔ ∃ k, line ∈ linesOf options code k := by
  rw [Emitter.mem_piecesOf_iff]
  constructor
  · rintro ⟨k, i, hi, hline⟩
    refine ⟨k, ?_⟩
    rw [linesOf, hi]
    exact hline
  · rintro ⟨k, hline⟩
    cases hi : code[k]? with
    | none => simp [linesOf, hi] at hline
    | some i =>
      refine ⟨k, i, hi, ?_⟩
      rwa [linesOf, hi] at hline

end Streams

/-- What is accepted is written, one instruction after the other. -/
theorem passes_of_accepts (options : EmitOptions) {code : List Instruction}
    (h : ∀ i ∈ code, Accepts i) : (emitter options).Passes first code := by
  refine Emitter.passes_of_forall (fun i hi s => ?_) first
  rw [result_step_emitter]
  exact exists_step options.width s (h i hi)

end Llvm

/-! ## 6. Source texts -/

/-- A step to the left with a positive count is accepted. -/
theorem Instruction.Basic.accepts {i : Instruction} (h : i.Basic)
    (hmove : i.opcode = .left → 0 < i.value ∧ Operand.InRange i.value) : Llvm.Accepts i := by
  obtain ⟨hsymbol, hoffset⟩ := h
  refine ⟨fun hpattern => ?_, fun _ => hoffset, fun hop => ?_⟩
  · simp only [List.mem_cons, List.not_mem_nil, or_false] at hpattern
    rcases hpattern with hop | hop | hop <;> simp [hop, Opcode.symbol?] at hsymbol
  · obtain ⟨hpos, hrange⟩ := hmove hop
    unfold Operand.InRange Operand.least Operand.greatest at *
    omega

namespace Source

variable {text : String} {code : List Instruction}

/-- A source has no patterns and no divisions, and its steps are by one. -/
theorem llvm_accepts (h : parse text = .ok code) : ∀ i ∈ code, Llvm.Accepts i := by
  intro i hi
  refine ((basic_of_parse h).1 i hi).accepts fun hop => ?_
  rw [value_of_parse h hi (by simp [hop, Opcode.isCounted])]
  decide

/-- The stream of a text stays acceptable when it is optimized. -/
theorem llvm_accepts_of_optimize (h : parse text = .ok code) {optimized : Optimized}
    (hoptimize : Stream.optimize .llvm code = .ok optimized) :
    ∀ i ∈ optimized.code, Llvm.Accepts i := by
  obtain ⟨merged, hmerge, hoptimize⟩ := bind_eq_ok_iff.1 hoptimize
  rw [FlattenError.ofOverflow_eq_ok_iff] at hmerge
  obtain ⟨-, -, hbasic, -⟩ := basic_of_mergeAll h hmerge
  have hup := (Stream.merged_of_mergeAll hmerge).upwards
  have hfits := Stream.fits_of_mergeAll (fits_of_parse h) hmerge
  have hmerged : ∀ i ∈ merged, Llvm.Accepts i := fun i hi =>
    (hbasic i hi).accepts fun hop =>
      ⟨hup i hi (by simp [hop, Opcode.opposite?]),
        (hfits i hi (by simp [hop, Opcode.isCounted])).1⟩
  obtain ⟨⟨flat, stats⟩, hflatten, hoptimize⟩ := bind_eq_ok_iff.1 hoptimize
  cases hoptimize
  obtain ⟨final, hrun, hfinal⟩ := bind_eq_ok_iff.1 hflatten
  cases hfinal
  intro i hi
  rcases Flattener.mem_output_of_run hrun (List.mem_reverse.1 hi) with hi | hi | hmade
  · cases hi
  · exact hmerged i hi
  · unfold Flattener.Makes at hmade
    refine ⟨fun hpattern => ?_, fun hop => ?_, fun hop => ?_⟩
    · simp only [List.mem_cons, List.not_mem_nil, or_false] at hpattern
      rcases hpattern with hop | hop | hop <;> simp [hop] at hmade
    · simpa [hop] using hmade
    · simp [hop] at hmade

end Source

end TapeCompiler
