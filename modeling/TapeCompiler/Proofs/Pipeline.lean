/-
TapeCompiler.Proofs.Pipeline — labels through any sequence of passes.

The parser, the two optimizers and the machine find the partner of a
bracket in three ways: by a stack of labels, by counting, and by a table
of labels. They agree as long as the stream is well-formed, and it stays
so: every pass keeps the nesting and makes no new label (`Pass.keeps`), so
any number of passes does, in any order and for any targets
(`Pass.keeps_all`).

* The only way for a pass to fail on such a stream is an overflow. What the
  flattener has left to do is a rest of the stream, in which every loop
  that is opened is closed as well.
* A run of such a stream never asks the jump table in vain, so what it
  remarks on is its instructions' own matter
  (`Program.Linked.changes_of_resume`).
-/
import TapeCompiler.Pass
import TapeCompiler.Proofs.SourceLabels
import TapeCompiler.Proofs.Merging
import TapeCompiler.Proofs.FlattenPass
import TapeCompiler.Proofs.ControlFlow

namespace TapeCompiler

/-! ## 1. How a pass can fail -/

namespace Stream

/-- The stream closes what it opens, and some brackets that were opened
before it. -/
def Closing (code : List Instruction) : Prop := ∃ opened, code.foldlM enter opened = some []

theorem WellFormed.closing {code : List Instruction} (h : WellFormed code) : Closing code :=
  ⟨[], h.nested⟩

theorem Closing.of_suffix {code rest : List Instruction} (h : Closing code)
    (hrest : rest <:+ code) : Closing rest := by
  obtain ⟨opened, hwalk⟩ := h
  obtain ⟨before, rfl⟩ := hrest
  rw [List.foldlM_append] at hwalk
  obtain ⟨inner, -, hwalk⟩ := Option.bind_eq_some_iff.1 hwalk
  exact ⟨inner, hwalk⟩

/-- The search for the end of a loop succeeds. -/
theorem Closing.exists_parts {start : Instruction} {rest : List Instruction}
    (h : Closing (start :: rest)) (hs : start.opcode = .loopStart) :
    ∃ parts, LoopParts.find? 0 [] rest = some parts := by
  obtain ⟨opened, hwalk⟩ := h
  have henter : enter opened start = some (start :: opened) := by
    simp [enter, hs, Opcode.opensBlock]
  rw [List.foldlM_cons, henter] at hwalk
  have hcloses : ClosesAll (start :: opened) rest := ClosesAll.of_enter hwalk
  cases hcloses with
  | next body closes _ =>
    have hclose := closes.1
    simp only [hs, Opcode.closer?, Option.some.injEq] at hclose
    exact ⟨_, LoopParts.find?_block body hclose.symm _⟩

end Stream

namespace Flattener

theorem suffix_of_finishCell {r r' : Flattener} {start : Instruction}
    {rest rest' : List Instruction} (h : r.finishCell start rest = .ok (r', rest')) :
    rest' <:+ rest := by
  rcases finishCell_cases h with ⟨-, rfl⟩ | ⟨next, -, rfl, -⟩
  · exact List.suffix_refl _
  · exact List.suffix_cons _ _

/-- A step leaves a rest of the stream. -/
theorem suffix_of_step {target : Target} {r r' : Flattener} {i : Instruction}
    {rest rest' : List Instruction} (h : r.step target i rest = .ok (r', rest')) :
    rest' <:+ i :: rest := by
  rcases step_cases h with ⟨-, -, rfl⟩ | ⟨parts, -, hparts, hloop⟩
  · exact List.suffix_cons _ _
  · have hbehind : parts.rest <:+ i :: rest := by
      have happend := LoopParts.append_of_find? hparts
      refine ⟨i :: (parts.body ++ [parts.close]), ?_⟩
      simpa using happend.symm
    cases hloop with
    | dead => exact hbehind
    | kept => exact List.suffix_cons _ _
    | pattern => exact hbehind
    | clear _ _ finish => exact (suffix_of_finishCell finish).trans hbehind
    | multiply _ _ finish => exact (suffix_of_finishCell finish).trans hbehind

/-- On a stream that closes its loops the flattener fails by an overflow and in
no other way. -/
theorem overflow_of_run {target : Target} {r : Flattener} {code : List Instruction}
    {e : FlattenError} (hcode : Stream.Closing code) (h : run target r code = .error e) :
    ∃ cause, e = .overflow cause := by
  fun_induction run target r code with
  | case1 => cases h
  | case2 r i rest e' hstep =>
    cases h
    rcases step_error_cases hstep with ⟨hloop, hnone, -⟩ | hcause
    · obtain ⟨parts, hparts⟩ := hcode.exists_parts hloop
      rw [hnone] at hparts
      cases hparts
    · exact hcause
  | case3 r i rest r' rest' hstep _ ih => exact ih (hcode.of_suffix (suffix_of_step hstep)) h

end Flattener

/-! ## 2. What a pass keeps -/

/-- The new stream is well-formed and has no labels but those of the old one,
in the same order. -/
def Stream.Keeps (code code' : List Instruction) : Prop :=
  Stream.WellFormed code' ∧ (Stream.labels code').Sublist (Stream.labels code)

namespace Pass

variable {pass : Pass} {passes : List Pass} {code code' : List Instruction} {e : FlattenError}

theorem keeps_of_tree {t t' : Tree} (hwf : Stream.WellFormed t.code)
    (hlabels : (Stream.labels t'.code).Sublist (Stream.labels t.code)) :
    Stream.Keeps t.code t'.code :=
  ⟨Tree.wellFormed_code (hwf.labels_nodup.sublist hlabels), hlabels⟩

/-- One pass keeps the stream well-formed and makes no label. -/
theorem keeps {passed : Passed} (hwf : Stream.WellFormed code)
    (h : pass.apply code = .ok passed) : Stream.Keeps code passed.code := by
  obtain ⟨t, rfl⟩ := hwf.exists_tree
  cases pass with
  | merge =>
    obtain ⟨_, hmerge, h⟩ := bind_eq_ok_iff.1 h
    have hmerge' := FlattenError.ofOverflow_eq_ok_iff.1 hmerge
    cases h
    obtain ⟨t', hrewrites, rfl⟩ := Stream.rewrites_of_merge hmerge'
    exact keeps_of_tree hwf (hrewrites.labels_eq ▸ List.Sublist.refl _)
  | mergeAll =>
    obtain ⟨_, hmerge, h⟩ := bind_eq_ok_iff.1 h
    have hmerge' := FlattenError.ofOverflow_eq_ok_iff.1 hmerge
    cases h
    obtain ⟨t', hrewrites, rfl⟩ := Stream.rewrites_of_mergeAll hmerge'
    exact keeps_of_tree hwf (hrewrites.labels_eq ▸ List.Sublist.refl _)
  | flatten target =>
    obtain ⟨_, hflatten, h⟩ := bind_eq_ok_iff.1 h
    cases h
    obtain ⟨t', hflat, hcode⟩ := Stream.flattens_of_flattenWithStats hflatten
    exact hcode ▸ keeps_of_tree hwf hflat.labels_sublist

/-- The usual passes keep the stream well-formed. -/
theorem wellFormed_of_optimize {target : Target} {optimized : Optimized}
    (hwf : Stream.WellFormed code) (h : Stream.optimize target code = .ok optimized) :
    Stream.WellFormed optimized.code := by
  obtain ⟨merged, hmerge, h⟩ := bind_eq_ok_iff.1 h
  have happly : apply .mergeAll code = .ok { code := merged } :=
    bind_eq_ok_iff.2 ⟨merged, hmerge, rfl⟩
  have hmerged := (keeps hwf happly).1
  split at h
  · obtain ⟨⟨flat, stats⟩, hflatten, h⟩ := bind_eq_ok_iff.1 h
    cases h
    have happly' : apply (.flatten target) merged = .ok { code := flat, stats := some stats } :=
      bind_eq_ok_iff.2 ⟨_, hflatten, rfl⟩
    exact (keeps hmerged happly').1
  · cases h
    exact hmerged

/-- An arithmetic pass fails by an overflow and in no other way. -/
theorem overflow_of_ofOverflow {α β : Type} {x : Except Overflow α}
    {f : α → Except FlattenError β} (hf : ∀ a, ∃ b, f a = .ok b)
    (h : (FlattenError.ofOverflow x >>= f) = .error e) : ∃ cause, e = .overflow cause := by
  cases x with
  | error cause =>
    cases h
    exact ⟨cause, rfl⟩
  | ok a =>
    obtain ⟨b, hb⟩ := hf a
    exact absurd (hb.symm.trans h) (by simp)

/-- The only way for a pass to fail on a well-formed stream. -/
theorem overflow_of_apply (hwf : Stream.WellFormed code) (h : pass.apply code = .error e) :
    ∃ cause, e = .overflow cause := by
  cases pass with
  | merge => exact overflow_of_ofOverflow (fun _ => ⟨_, rfl⟩) h
  | mergeAll => exact overflow_of_ofOverflow (fun _ => ⟨_, rfl⟩) h
  | flatten target =>
    cases hrun : Flattener.run target {} code with
    | error e' =>
      simp only [apply, Stream.flattenWithStats, hrun, bind, Except.bind,
        Except.error.injEq] at h
      exact h ▸ Flattener.overflow_of_run hwf.closing hrun
    | ok r => simp [apply, Stream.flattenWithStats, hrun, bind, Except.bind, pure, Except.pure] at h

theorem applyAll_cons (pass : Pass) (passes : List Pass) (code : List Instruction) :
    applyAll (pass :: passes) code =
      (pass.apply code >>= fun passed => applyAll passes passed.code) := by
  unfold applyAll
  rw [List.foldlM_cons]
  cases pass.apply code <;> rfl

/-- **Any sequence of passes** fails by an overflow, or keeps the stream
well-formed and makes no label. -/
theorem keeps_all (passes : List Pass) (hwf : Stream.WellFormed code) :
    (∃ cause, applyAll passes code = .error (.overflow cause)) ∨
      ∃ code', applyAll passes code = .ok code' ∧ Stream.Keeps code code' := by
  induction passes generalizing code with
  | nil => exact .inr ⟨code, rfl, hwf, .refl _⟩
  | cons pass passes ih =>
    rw [applyAll_cons]
    cases hpass : pass.apply code with
    | error e =>
      obtain ⟨cause, rfl⟩ := overflow_of_apply hwf hpass
      exact .inl ⟨cause, rfl⟩
    | ok passed =>
      obtain ⟨hwf', hlabels⟩ := keeps hwf hpass
      rcases ih hwf' with hfails | ⟨code', hrest, hwf'', hlabels'⟩
      · exact .inl hfails
      · exact .inr ⟨code', hrest, hwf'', hlabels'.trans hlabels⟩

end Pass

/-! ## 3. What a run remarks on -/

/-- The remark is about a jump and its label. -/
def Warning.AboutJump (x : Warning) : Prop :=
  x.message = "Unmatched jump label" ∨
    ∃ label : Int, x.message = s!"No jump target for label @{label}"

theorem Warning.IsRemark.not_aboutJump {x : Warning} (h : IsRemark x.message) :
    ¬ x.AboutJump := by
  -- the first characters differ
  have hfirst : x.message.toList.head? = some 'D' ∨ x.message.toList.head? = some 'F' := by
    rcases h with hm | ⟨reason, hm⟩
    · simp [hm]
    · simp [hm, String.toList_append]
  rintro (hm | ⟨label, hm⟩)
  · simp [hm] at hfirst
  · simp [hm, String.toList_append, toString] at hfirst

/-- The remarks that elementary changes of a store leave. -/
theorem Store.Changes.remarks {w : Width} {s s' : Store} (h : s.Changes w s') :
    ∃ new, s'.warnings = s.warnings ++ new ∧ ∀ x ∈ new, ¬ x.AboutJump := by
  induction h with
  | refl => exact ⟨#[], by simp, by simp⟩
  | tail _ hc ih =>
    obtain ⟨new, heq, hnew⟩ := ih
    cases hc with
    | remark message position remark =>
      refine ⟨new.push ⟨message, position⟩, by simp [Store.warn, heq], fun x hx => ?_⟩
      rcases Array.mem_push.1 hx with hx | rfl
      · exact hnew x hx
      · exact Warning.IsRemark.not_aboutJump remark
    | _ => exact ⟨new, heq, hnew⟩

namespace Program

/-- No bracket of the program asks the jump table in vain. -/
def Linked (p : Program) : Prop :=
  ∀ i ∈ p.code,
    (i.opcode.opensBlock = true → ∃ stop, p.jumps.stop? i.value = some stop) ∧
      (i.opcode = .loopEnd → ∃ start, p.jumps.start? i.value = some start)

/-- One instruction of a linked program makes elementary changes only. -/
theorem Linked.changes_of_perform {p : Program} (hp : p.Linked) {i : Instruction}
    (hi : i ∈ p.code) {m m' : Machine} (h : p.perform i m = .ok m') :
    m.toStore.Changes p.width m'.toStore := by
  obtain ⟨hopens, hends⟩ := hp i hi
  have hskip (hopen : i.opcode.opensBlock = true)
      (h : (do
        let value ← m.cell 0 i.position
        if value = 0 then return m.jump (p.jumps.stop? i.value) i else return m.next) =
          (.ok m' : Except Crash Machine)) : m.toStore.Changes p.width m'.toStore := by
    obtain ⟨value, -, h⟩ := bind_eq_ok_iff.1 h
    obtain ⟨stop, hstop⟩ := hopens hopen
    rw [hstop] at h
    split at h <;> cases h <;> exact .refl
  unfold perform at h
  split at h
  · rename_i hop
    exact hskip (by simp [hop, Opcode.opensBlock]) h
  · rename_i hop
    exact hskip (by simp [hop, Opcode.opensBlock]) h
  · rename_i hop
    obtain ⟨value, -, h⟩ := bind_eq_ok_iff.1 h
    obtain ⟨start, hstart⟩ := hends hop
    rw [hstart] at h
    split at h <;> cases h <;> exact .refl
  · obtain ⟨s, heffect, h⟩ := bind_eq_ok_iff.1 h
    cases h
    exact Instruction.changes_of_effect heffect

/-- So does a run of it, however long and whatever its end. -/
theorem Linked.changes_of_resume {p : Program} (hp : p.Linked) {headroom : Nat} {m m' : Machine}
    {outcome : Outcome} (h : p.resume headroom m = .ok (outcome, m')) :
    m.toStore.Changes p.width m'.toStore := by
  fun_induction resume p headroom m with
  | case1 =>
    cases h
    exact .refl
  | case2 =>
    cases h
    exact .refl
  | case3 => cases h
  | case4 => cases h
  | case5 m i hi _ headroom m₁ hperform ih =>
    have hmem : i ∈ p.code := Array.mem_of_getElem? hi
    exact (hp.changes_of_perform hmem hperform).trans (ih h)

end Program

/-! ## 4. The whole pipeline -/

namespace Stream

/-- The labels of a stream lead the machine where the nesting of the
brackets would, and leave it nothing to remark on. -/
structure Connected (code : List Instruction) : Prop where
  /-- The jump table has the two ends of every block. -/
  leads : ∀ index start, code[index]? = some start → start.opcode.opensBlock = true →
    Leads (JumpTable.ofStream code).1 code index start
  /-- Nothing is amiss when the table is made. -/
  unremarked : (JumpTable.ofStream code).2 = #[]
  /-- Nothing is amiss in a run, from whatever machine. As this holds of
  every step limit, it holds of every state that a run comes through. -/
  quiet : ∀ (headroom : Nat) (m m' : Machine) (w : Width) (limit : Option Nat) (outcome : Outcome),
    m.executeWithin headroom code w limit = .ok (outcome, m') →
      ∃ new, m'.warnings = m.warnings ++ new ∧ ∀ x ∈ new, ¬ x.AboutJump

theorem WellFormed.connected {code : List Instruction} (h : WellFormed code) : Connected code := by
  obtain ⟨t, rfl⟩ := h.exists_tree
  obtain ⟨table, htable, hlinked⟩ := JumpTable.linked_ofStream h.labels_nodup
  refine ⟨fun index start hstart hopens => ?_, by rw [htable], ?_⟩
  · have hfirst : t.Linked table ([] : List Instruction).length := hlinked
    simpa [htable] using hfirst.leads [] hstart hopens
  · intro headroom m m' w limit outcome hrun
    have hp : Program.Linked { code := t.code.toArray, jumps := table, width := w, limit } :=
      fun i hi => hlinked.found (by simpa using hi)
    simp only [Machine.executeWithin, htable] at hrun
    simpa using (hp.changes_of_resume hrun).remarks

/-- The label of a loop's end leads back to the start of the loop. -/
theorem WellFormed.leads_back {code : List Instruction} (h : WellFormed code) {close : Instruction}
    (hclose : close ∈ code) (hend : close.opcode = .loopEnd) :
    ∃ k start, code[k]? = some start ∧ close.Closes start ∧
      (JumpTable.ofStream code).1.start? close.value = some k := by
  obtain ⟨t, rfl⟩ := h.exists_tree
  obtain ⟨table, htable, hlinked⟩ := JumpTable.linked_ofStream h.labels_nodup
  simpa [htable] using hlinked.back hclose hend

end Stream

/-- **Labels through any pipeline.** Of a text that parses, any sequence of
passes makes a well-formed stream, unless a count or an offset overflows.
Its labels lie between 1 and the number of opening brackets of the text,
and they lead the machine where the nesting of the brackets would. -/
theorem Source.labels_through_passes {text : String} {code : List Instruction}
    (h : Source.parse text = .ok code) (passes : List Pass) :
    (∃ cause, Pass.applyAll passes code = .error (.overflow cause)) ∨
      ∃ code', Pass.applyAll passes code = .ok code' ∧ Stream.WellFormed code' ∧
        (∀ label ∈ Stream.labels code', 1 ≤ label ∧ label ≤ text.toList.count '[') ∧
        Stream.Connected code' := by
  obtain ⟨hwf, hlabels⟩ := Source.wellFormed_of_parse h
  rcases Pass.keeps_all passes hwf with hfails | ⟨code', hpasses, hwf', hsublist⟩
  · exact .inl hfails
  · refine .inr ⟨code', hpasses, hwf', fun label hl => ?_, hwf'.connected⟩
    have hmem : label ∈ Stream.firstLabels (text.toList.count '[') := hlabels ▸ hsublist.subset hl
    exact Stream.mem_firstLabels hmem

/-- An outer loop that stays and an inner one that becomes a guarded
product: both keep their labels. -/
theorem Source.labels_through_passes_nested :
    ∃ code code' : List Instruction, Source.parse "[[->+<]<]" = .ok code ∧
      Pass.applyAll [.merge, .flatten .c, .flatten .qbe] code = .ok code' ∧
      Stream.labels code' = [1, 2] ∧ Stream.WellFormed code' ∧ Stream.Connected code' := by
  have hparse : Source.parse "[[->+<]<]" = .ok [⟨.loopStart, 1, 0, some ⟨1, 1⟩⟩,
      ⟨.loopStart, 2, 0, some ⟨1, 2⟩⟩, ⟨.sub, 1, 0, some ⟨1, 3⟩⟩, ⟨.right, 1, 0, some ⟨1, 4⟩⟩,
      ⟨.add, 1, 0, some ⟨1, 5⟩⟩, ⟨.left, 1, 0, some ⟨1, 6⟩⟩, ⟨.loopEnd, 2, 0, some ⟨1, 7⟩⟩,
      ⟨.left, 1, 0, some ⟨1, 8⟩⟩, ⟨.loopEnd, 1, 0, some ⟨1, 9⟩⟩] := by
    cbv
  have hpasses : Pass.applyAll [.merge, .flatten .c, .flatten .qbe]
      [⟨.loopStart, 1, 0, some ⟨1, 1⟩⟩, ⟨.loopStart, 2, 0, some ⟨1, 2⟩⟩,
        ⟨.sub, 1, 0, some ⟨1, 3⟩⟩, ⟨.right, 1, 0, some ⟨1, 4⟩⟩, ⟨.add, 1, 0, some ⟨1, 5⟩⟩,
        ⟨.left, 1, 0, some ⟨1, 6⟩⟩, ⟨.loopEnd, 2, 0, some ⟨1, 7⟩⟩, ⟨.left, 1, 0, some ⟨1, 8⟩⟩,
        ⟨.loopEnd, 1, 0, some ⟨1, 9⟩⟩] =
      .ok [⟨.loopStart, 1, 0, some ⟨1, 1⟩⟩, ⟨.guard, 2, 0, some ⟨1, 2⟩⟩,
        ⟨.mul, 1, 1, some ⟨1, 5⟩⟩, ⟨.label, 2, 0, some ⟨1, 7⟩⟩, ⟨.mul, -1, 0, some ⟨1, 2⟩⟩,
        ⟨.left, 1, 0, some ⟨1, 8⟩⟩, ⟨.loopEnd, 1, 0, some ⟨1, 9⟩⟩] := by
    cbv
  rcases Source.labels_through_passes hparse [.merge, .flatten .c, .flatten .qbe] with
    ⟨cause, hfails⟩ | ⟨code', hcode', hwf, -, hconnected⟩
  · rw [hpasses] at hfails
    cases hfails
  · refine ⟨_, code', hparse, hcode', ?_, hwf, hconnected⟩
    rw [hpasses] at hcode'
    cases hcode'
    decide

end TapeCompiler
