/-
TapeCompiler.Proofs.RoundTrip — merged streams survive their own text.

A source text is read and merged to the end, and the result is written as
symbols again. Reading and merging this text gives the same stream, up to
positions, and so the same text once more.

Writing spells each count out, as a row of instructions that count one each.
Three facts bring the row back to what it was.

* A pass takes such a row together (`Stream.amountsTo_replicate`), and rows
  of a merged stream do not run into each other, so one pass is enough.
* The loops of a merged stream still have the labels 1, 2, 3, … in the order
  in which they are opened, which are those that reading gives to them
  (`Tree.exists_loopTree`).
* Positions are all that differs, and no pass looks at them
  (`Stream.mergeAll_map`).
-/
import TapeCompiler.Proofs.MergePasses
import TapeCompiler.Proofs.Compilation

namespace TapeCompiler

/-! ## 1. Rows that count one each -/

/-- The instruction written out: one that counts as often as it counts, and
without its position. -/
def Instruction.spelledOut (i : Instruction) : List Instruction :=
  if i.opcode.isCounted then List.replicate i.value.toNat ⟨i.opcode, 1, 0, none⟩
  else [i.unplaced]

/-- A run that goes on as long as the total is in range. -/
theorem Merging.foldlM_replicate {first : Instruction} (output : Array Instruction)
    {count : Int} (n : Nat) (hpos : 0 ≤ count) (hrange : Operand.InRange (count + n)) :
    (List.replicate n ⟨first.opcode, 1, 0, none⟩).foldlM feed ⟨output, some ⟨first, count⟩⟩ =
      .ok ⟨output, some ⟨first, count + n⟩⟩ := by
  induction n generalizing count with
  | zero => simp [pure, Except.pure]
  | succ n ih =>
    have hsum : count + 1 + (n : Int) = count + (n + 1 : Nat) := by omega
    have hstep : Operand.add count 1 = .ok (count + 1) := by
      refine Operand.checked_eq_ok_iff.2 ⟨?_, rfl⟩
      unfold Operand.InRange Operand.least Operand.greatest at *
      omega
    have hfeed : feed ⟨output, some ⟨first, count⟩⟩ ⟨first.opcode, 1, 0, none⟩ =
        .ok ⟨output, some ⟨first, count + 1⟩⟩ := by
      simp only [feed, if_true, hstep]
      rfl
    rw [List.replicate_succ, List.foldlM_cons, hfeed, ← hsum]
    exact ih (by omega) (hsum ▸ hrange)

namespace Stream

/-- A pass takes a row of units together. -/
theorem amountsTo_replicate {i : Instruction} (hcounted : i.opcode.isCounted = true)
    (hpos : 0 < i.value) (hrange : Operand.InRange i.value) (hoffset : i.offset = 0)
    (hposition : i.position = none) :
    AmountsTo (List.replicate i.value.toNat ⟨i.opcode, 1, 0, none⟩) i := by
  intro m hm hupwards hlast
  obtain ⟨n, hn⟩ : ∃ n : Nat, i.value = 1 + n := ⟨i.value.toNat - 1, by omega⟩
  have hlength : i.value.toNat = n + 1 := by omega
  have hunit : m.feed ⟨i.opcode, 1, 0, none⟩ =
      .ok ⟨m.output ++ m.pending.toArray, some ⟨⟨i.opcode, 1, 0, none⟩, 1⟩⟩ := by
    rw [Merging.feed_of_not_merges (i := ⟨i.opcode, 1, 0, none⟩) hm hlast,
      Merging.flush_of_upwards hupwards]
    simp [Merging.start, hcounted, bind, Except.bind]
  have hrow := @Merging.foldlM_replicate ⟨i.opcode, 1, 0, none⟩
    (m.output ++ m.pending.toArray) 1 n Int.one_nonneg (hn ▸ hrange)
  refine ⟨⟨m.output ++ m.pending.toArray, some ⟨⟨i.opcode, 1, 0, none⟩, 1 + n⟩⟩, ?_, ?_⟩
  · rw [hlength, List.replicate_succ, List.foldlM_cons, hunit]
    exact hrow
  · refine ⟨.of_run hcounted, .inl ⟨?_, rfl⟩⟩
    obtain ⟨opcode, value, offset, position⟩ := i
    simp_all [Merging.pending, Run.step]

end Stream

/-! ## 2. A pass over a merged stream that is spelled out -/

namespace Stream

variable {code code' : List Instruction}

/-- One pass over a merged stream that is spelled out gives it back. -/
theorem merge_spelledOut (hmerged : Merged code) (hfits : Fits code)
    (hplace : ∀ i ∈ code, i.offset = 0 ∧ i.position = none) :
    merge (code.flatMap Instruction.spelledOut) = .ok code := by
  refine merge_rows hmerged fun i hi => ?_
  obtain ⟨hoffset, hposition⟩ := hplace i hi
  unfold Instruction.spelledOut
  split
  · rename_i hcounted
    exact amountsTo_replicate hcounted (value_pos hmerged.upwards hfits hi hcounted)
      (hfits i hi hcounted).1 hoffset hposition
  · have hi : i.unplaced = i := by
      obtain ⟨opcode, value, offset, position⟩ := i
      cases hposition
      rfl
    rw [hi]
    exact amountsTo_self i

end Stream

/-! ## 3. Labels -/

namespace Instruction

/-- Of the instructions that have a symbol, all but the brackets count. -/
theorem Basic.counted {i : Instruction} (h : i.Basic) (plain : i.Plain) :
    i.opcode.isCounted = true ∧ i.OutsideLoops := by
  obtain ⟨hsymbol, -⟩ := h
  obtain ⟨hopens, hcloses⟩ := plain
  unfold OutsideLoops
  cases hop : i.opcode <;>
    simp_all [Opcode.symbol?, Opcode.opensBlock, Opcode.closesBlock, Opcode.isCounted]

/-- A bracket with a symbol and no offset is its opcode and its label. -/
theorem Basic.spelledOut_bracket {i : Instruction} (h : i.Basic) {op : Opcode}
    (hop : i.opcode = op) (hcounted : op.isCounted = false) {label : Nat}
    (hlabel : i.value = label) : i.spelledOut = [⟨op, label, 0, none⟩] := by
  obtain ⟨opcode, value, offset, position⟩ := i
  obtain ⟨-, hoffset⟩ := h
  simp_all [spelledOut, unplaced]

end Instruction

/-- A tree of basic instructions is a tree of loops. If its loops are numbered
as they are opened, spelling it out leaves the labels alone. -/
theorem Tree.exists_loopTree {t : Tree} (h : ∀ i ∈ t.code, i.Basic) :
    ∃ loops : LoopTree, loops.code = t.code ∧ (Stream.labels t.code).length = loops.loops ∧
      ∀ first : Nat, Stream.labels t.code = (List.range' first loops.loops).map Int.ofNat →
        loops.spelledOut first = t.code.flatMap Instruction.spelledOut := by
  induction t with
  | done => exact ⟨.done, rfl, rfl, fun _ _ => rfl⟩
  | step i plain rest ih =>
    obtain ⟨hi, hrest⟩ := List.forall_mem_cons.1 h
    obtain ⟨hcounted, outside⟩ := hi.counted plain
    obtain ⟨loops, hcode, hlength, hspelled⟩ := ih hrest
    refine ⟨.step i outside loops, by simp [hcode], ?_, fun first hlabels => ?_⟩
    · rw [labels_step, hlength]
      rfl
    · rw [labels_step] at hlabels
      simp [LoopTree.spelledOut, Instruction.spelledOut, hcounted, hspelled first hlabels]
  | block start body close closes rest ihb ihr =>
    simp only [code_block, List.forall_mem_cons, List.forall_mem_append] at h
    obtain ⟨hstart, hbody, hclose, hrest⟩ := h
    obtain ⟨opens, hend⟩ : start.opcode = .loopStart ∧ close.opcode = .loopEnd := by
      rcases closes.kinds with hkind | ⟨hkind, -⟩
      · exact hkind
      · exact absurd (by simp [hkind, Opcode.symbol?]) hstart.1
    obtain ⟨inner, hinner, hlengthb, hspelledb⟩ := ihb hbody
    obtain ⟨outer, houter, hlengthr, hspelledr⟩ := ihr hrest
    refine ⟨.loop start inner close opens hend outer, by simp [hinner, houter], ?_, ?_⟩
    · simp only [labels_block, List.length_cons, List.length_append, hlengthb, hlengthr]
      rfl
    · intro first hlabels
      -- The first label is the loop's own; the rest is shared out by its length.
      have hrange : (List.range' first (inner.loops + outer.loops + 1)).map Int.ofNat =
          (first : Int) :: ((List.range' (first + 1) inner.loops).map Int.ofNat ++
            (List.range' (first + 1 + inner.loops) outer.loops).map Int.ofNat) := by
        rw [List.range'_succ, ← List.range'_append_1, List.map_cons, List.map_append]
        rfl
      rw [labels_block] at hlabels
      obtain ⟨hlabel, hlabels⟩ := List.cons.inj (hlabels.trans hrange)
      obtain ⟨hlabelsb, hlabelsr⟩ := List.append_inj hlabels (by simp [hlengthb])
      have hlabel' : close.value = first := closes.2 ▸ hlabel
      rw [LoopTree.spelledOut, hspelledb _ hlabelsb, hspelledr _ hlabelsr]
      simp [hstart.spelledOut_bracket opens rfl hlabel, hclose.spelledOut_bracket hend rfl hlabel']

/-! ## 4. Text -/

/-- Without notes the text of an instruction does not show its position. -/
theorem Symbols.chars_unplaced (i : Instruction) : chars false i.unplaced = chars false i := by
  obtain ⟨opcode, value, offset, position⟩ := i
  cases opcode <;> rfl

namespace Stream

variable {code code' : List Instruction}

/-- A stream of instructions that have symbols has a text. -/
theorem decompile_eq_ok (h : ∀ i ∈ code, i.opcode.symbol? ≠ none) :
    ∃ text, decompile code = .ok text ∧ text.toList = code.flatMap (Symbols.chars false) := by
  obtain ⟨houtcome, htext⟩ := emission_symbols {} h
  exact ⟨_, by simp [decompile, houtcome], htext⟩

theorem decompile_congr (hplaces : code'.map Instruction.unplaced = code.map Instruction.unplaced)
    (h : ∀ i ∈ code, i.opcode.symbol? ≠ none) : decompile code' = decompile code := by
  have hchars (code : List Instruction) : code.flatMap (Symbols.chars false) =
      (code.map Instruction.unplaced).flatMap (Symbols.chars false) := by
    rw [List.flatMap_map]
    exact congrArg (code.flatMap ·) (funext fun i => (Symbols.chars_unplaced i).symm)
  have h' : ∀ i ∈ code', i.opcode.symbol? ≠ none := by
    intro i hi
    have hmem : i.unplaced ∈ code.map Instruction.unplaced :=
      hplaces ▸ List.mem_map_of_mem hi
    obtain ⟨j, hj, hij⟩ := List.mem_map.1 hmem
    have hop : j.unplaced.opcode = i.unplaced.opcode := congrArg Instruction.opcode hij
    exact fun hnone => h j hj (hop ▸ hnone)
  obtain ⟨text, hdecompile, htext⟩ := decompile_eq_ok h
  obtain ⟨text', hdecompile', htext'⟩ := decompile_eq_ok h'
  rw [hchars] at htext htext'
  rw [hdecompile, hdecompile', String.toList_injective (htext'.trans (hplaces ▸ htext.symm))]

end Stream

/-- What comes of merging the stream of a text to the end. -/
theorem Source.basic_of_mergeAll {text : String} {code merged : List Instruction}
    (h : Source.parse text = .ok code) (hmerge : Stream.mergeAll code = .ok merged) :
    ∃ t : Tree, t.code = merged ∧ (∀ i ∈ merged, i.Basic) ∧
      Stream.labels merged = Stream.firstLabels (text.toList.count '[') := by
  obtain ⟨hbasic, -⟩ := basic_of_parse h
  obtain ⟨hwf, hlabels⟩ := wellFormed_of_parse h
  obtain ⟨t, rfl⟩ := hwf.exists_tree
  obtain ⟨t', hrewrites, rfl⟩ := Stream.rewrites_of_mergeAll hmerge
  exact ⟨t', rfl, hrewrites.basic hbasic, hrewrites.labels_eq.trans hlabels⟩

namespace Stream

variable {code : List Instruction}

theorem Merged.unplaced (h : Merged code) : Merged (code.map Instruction.unplaced) := by
  refine ⟨fun i hi => ?_, (List.isChain_map _).2 h.apart⟩
  obtain ⟨j, hj, rfl⟩ := List.mem_map.1 hi
  exact h.upwards j hj

theorem Fits.unplaced (h : Fits code) : Fits (code.map Instruction.unplaced) := by
  intro i hi
  obtain ⟨j, hj, rfl⟩ := List.mem_map.1 hi
  exact h j hj

theorem flatMap_spelledOut_unplaced (code : List Instruction) :
    (code.map Instruction.unplaced).flatMap Instruction.spelledOut =
      code.flatMap Instruction.spelledOut :=
  List.flatMap_map Instruction.unplaced Instruction.spelledOut code

/-- A stream that is a merged one spelled out, up to positions, is merged to
that one, up to positions. -/
theorem mergeAll_spelledOut {merged : List Instruction} (hmerged : Merged merged)
    (hfits : Fits merged) (hbasic : ∀ i ∈ merged, i.Basic)
    (hcode : code.map Instruction.unplaced = merged.flatMap Instruction.spelledOut) :
    ∃ merged', mergeAll code = .ok merged' ∧
      merged'.map Instruction.unplaced = merged.map Instruction.unplaced := by
  have hplace : ∀ i ∈ merged.map Instruction.unplaced, i.offset = 0 ∧ i.position = none := by
    intro i hi
    obtain ⟨j, hj, rfl⟩ := List.mem_map.1 hi
    exact ⟨(hbasic j hj).2, rfl⟩
  have hpass := merge_spelledOut hmerged.unplaced hfits.unplaced hplace
  rw [flatMap_spelledOut_unplaced, ← hcode] at hpass
  have hall : mergeAll (code.map Instruction.unplaced) = .ok (merged.map Instruction.unplaced) :=
    bind_eq_ok_iff.2 ⟨_, hpass, mergeOn_of_merged hmerged.unplaced⟩
  rw [mergeAll_map Instruction.sparesCounts_unplaced] at hall
  cases hmerge : mergeAll code with
  | error e => simp [hmerge, Except.map] at hall
  | ok merged' =>
    rw [hmerge] at hall
    exact ⟨merged', rfl, Except.ok.inj hall⟩

end Stream

/-- **A merged stream survives its own text.** Merging the stream of a text to
the end succeeds if the text is not beyond all measure, or takes more passes
than can be tallied, for which the text must have `2 ^ 32` characters. What
comes of it can be written as symbols; the new text is read and merged to the
same stream, up to positions, and this has the same text again. -/
theorem Source.recompile_round_trip {text : String} {code : List Instruction}
    (h : Source.parse text = .ok code) :
    (text.length < 2 ^ 63 → (∃ merged, Stream.mergeAll code = .ok merged) ∨
        Stream.mergeAll code = .error .add ∧ 2 ^ 32 ≤ text.length) ∧
      ∀ merged, Stream.mergeAll code = .ok merged →
        ∃ text' code' merged', Stream.decompile merged = .ok text' ∧
          Source.parse text' = .ok code' ∧ Stream.mergeAll code' = .ok merged' ∧
          merged'.map Instruction.unplaced = merged.map Instruction.unplaced ∧
          Stream.decompile merged' = .ok text' := by
  obtain ⟨-, hcounts⟩ := basic_of_parse h
  refine ⟨fun hlength => ?_, fun merged hmerge => ?_⟩
  · rcases Stream.mergeAll_of_counts (Nat.lt_of_le_of_lt hcounts hlength) with
      ⟨merged, hmerged, -⟩ | ⟨hfails, -⟩
    · exact .inl ⟨merged, hmerged⟩
    · exact .inr ⟨hfails, length_of_mergeAll_eq_error h hlength hfails⟩
  · obtain ⟨t, rfl, hbasic, hlabels⟩ := basic_of_mergeAll h hmerge
    have hsymbols : ∀ i ∈ t.code, i.opcode.symbol? ≠ none := fun i hi => (hbasic i hi).1
    obtain ⟨loops, hcode, hlength, hspelled⟩ := Tree.exists_loopTree hbasic
    have hcount : loops.loops = text.toList.count '[' := by
      rw [← hlength, hlabels]
      simp [Stream.firstLabels]
    obtain ⟨text', hdecompile, htext⟩ := Stream.decompile_eq_ok hsymbols
    obtain ⟨code', hparse, hplaces⟩ := Stream.parseChars_tree false loops (hcode ▸ hsymbols)
    rw [hspelled 1 (hcount ▸ hlabels)] at hplaces
    obtain ⟨merged', hmerge', hsame⟩ := Stream.mergeAll_spelledOut
      (Stream.merged_of_mergeAll hmerge) (Stream.fits_of_mergeAll (fits_of_parse h) hmerge)
      hbasic hplaces
    have hparse' : Source.parse text' = .ok code' := by
      rw [Source.parse, htext, ← hcode]
      exact hparse
    exact ⟨text', code', merged', hdecompile, hparse', hmerge', hsame,
      (Stream.decompile_congr hsame hsymbols).trans hdecompile⟩

/-- Two loops side by side, runs that cancel, and a comment. -/
theorem Source.recompile_round_trip_loops :
    ∃ (code merged : List Instruction) (text' : String) (code' merged' : List Instruction),
      Source.parse "++[->+<]x><[.,,]" = .ok code ∧ Stream.mergeAll code = .ok merged ∧
      Stream.decompile merged = .ok text' ∧ Source.parse text' = .ok code' ∧
      Stream.mergeAll code' = .ok merged' ∧
      merged'.map Instruction.unplaced = merged.map Instruction.unplaced ∧
      Stream.decompile merged' = .ok text' := by
  obtain ⟨code, hparse⟩ : ∃ code, Source.parse "++[->+<]x><[.,,]" = .ok code := ⟨_, rfl⟩
  obtain ⟨hexists, hround⟩ := recompile_round_trip hparse
  obtain ⟨merged, hmerge⟩ : ∃ merged, Stream.mergeAll code = .ok merged := by
    rcases hexists (by decide) with hmerged | ⟨-, hlong⟩
    · exact hmerged
    · exact absurd hlong (by decide)
  obtain ⟨text', code', merged', htrip⟩ := hround merged hmerge
  exact ⟨code, merged, text', code', merged', hparse, hmerge, htrip⟩

end TapeCompiler
