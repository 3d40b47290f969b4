/-
TapeCompiler.Proofs.Compilation — every text that parses is compiled.

A compilation reads a text, optimizes the stream if asked to, and writes it
for a target. Once the text is read only two things can go wrong, if the text
is shorter than `2 ^ 60` characters and the tape not too long to measure in
bits: merging may take more passes than can be tallied, which takes a text of
`2 ^ 32` characters, and QBE code may have more reads than can be tallied,
which takes `2 ^ 31` of them. Both bounds are met
(`Source.compilation_overflows`). Three things are followed through the
stages.

* The counts of the stream add up to no more than the characters of the
  text. Merging makes them no larger, so flattening cannot overflow.
* The instructions are those of the source language, at offset 0. Merging
  keeps that; flattening adds the instructions of `Flattener.Makes`, and
  these the target expresses.
* Reads count, so there are no more of them than characters. Flattening adds
  none.

That the blocks stay properly nested is shown in the modules about the
passes.
-/
import TapeCompiler.Pass
import TapeCompiler.Proofs.Reading
import TapeCompiler.Proofs.Delivery
import TapeCompiler.Proofs.FlattenBounds
import TapeCompiler.Proofs.EmitTotal
import TapeCompiler.Proofs.MergePasses
import TapeCompiler.Proofs.MergePositions

namespace TapeCompiler

/-! ## 1. Instructions of the source language -/

/-- The instruction has a symbol, and no offset. -/
def Instruction.Basic (i : Instruction) : Prop := i.opcode.symbol? ≠ none ∧ i.offset = 0

namespace Source

/-- A text has no more symbols than characters. -/
theorem length_occurrences_le (before text : List Char) :
    (occurrences before text).length ≤ text.length := by
  induction text generalizing before with
  | nil => exact Nat.le_refl _
  | cons c text ih =>
    have hle := ih (before ++ [c])
    unfold occurrences
    split
    · simpa using hle
    · exact Nat.le_succ_of_le hle

/-- A symbol that is no bracket counts one. -/
theorem ReadAs.value_of_counted {before : List Char} {c : Char} {i : Instruction}
    (h : ReadAs before c i) (hcounted : i.opcode.isCounted = true) : i.value = 1 := by
  have hsymbol := h.opcode
  have hvalue := h.value
  unfold HasValue at hvalue
  have hopen : c ≠ '[' := by
    rintro rfl
    cases hop : i.opcode <;> simp_all [Opcode.symbol?, Opcode.isCounted]
  have hclose : c ≠ ']' := by
    rintro rfl
    cases hop : i.opcode <;> simp_all [Opcode.symbol?, Opcode.isCounted]
  simpa only [hopen, hclose, if_false] using hvalue

theorem ReadAs.tally_le {before : List Char} {c : Char} {i : Instruction}
    (h : ReadAs before c i) : i.tally ≤ 1 := by
  unfold Instruction.tally
  split
  · rename_i hcounted
    simp [h.value_of_counted hcounted]
  · exact Nat.zero_le _

theorem StandsFor.basic {text : List Char} {code : List Instruction} (h : StandsFor text code) :
    (∀ i ∈ code, i.Basic) ∧ Stream.counts code ≤ (occurrences [] text).length := by
  unfold StandsFor at h
  generalize occurrences [] text = places at h
  induction h with
  | nil => simp
  | cons hread _ ih =>
    obtain ⟨hbasic, hcounts⟩ := ih
    have htally := hread.tally_le
    rw [List.forall_mem_cons, Stream.counts_cons, List.length_cons]
    exact ⟨⟨⟨by simp [hread.opcode], hread.offset⟩, hbasic⟩, by omega⟩

/-- What is read from a text counts one at a time. -/
theorem value_of_parse {text : String} {code : List Instruction} (h : parse text = .ok code)
    {i : Instruction} (hi : i ∈ code) (hcounted : i.opcode.isCounted = true) : i.value = 1 := by
  obtain ⟨-, hstands⟩ := standsFor_of_parseChars h
  obtain ⟨index, hindex, rfl⟩ := List.getElem_of_mem hi
  have hplace : index < (occurrences [] text.toList).length := hstands.length_eq ▸ hindex
  exact (hstands.get hplace hindex).value_of_counted hcounted

/-- What is read from a text: basic instructions, which count no more than
the text has characters. -/
theorem basic_of_parse {text : String} {code : List Instruction} (h : parse text = .ok code) :
    (∀ i ∈ code, i.Basic) ∧ Stream.counts code ≤ text.length := by
  obtain ⟨-, hstands⟩ := standsFor_of_parseChars h
  obtain ⟨hbasic, hcounts⟩ := hstands.basic
  have hlength := length_occurrences_le [] text.toList
  rw [String.length_toList] at hlength
  exact ⟨hbasic, Nat.le_trans hcounts hlength⟩

/-- What is read has no more instructions than the text has characters. -/
theorem length_le_of_parse {text : String} {code : List Instruction}
    (h : parse text = .ok code) : code.length ≤ text.length := by
  obtain ⟨-, hstands⟩ := standsFor_of_parseChars h
  have hlength := length_occurrences_le [] text.toList
  rw [String.length_toList] at hlength
  exact hstands.length_eq ▸ hlength

theorem upwards_of_parse {text : String} {code : List Instruction} (h : parse text = .ok code) :
    Stream.Upwards code := by
  intro i hi hstep
  rw [value_of_parse h hi (Opcode.isCounted_of_step hstep)]
  exact Int.one_pos

theorem fits_of_parse {text : String} {code : List Instruction} (h : parse text = .ok code) :
    Stream.Fits code := by
  intro i hi hcounted
  rw [value_of_parse h hi hcounted]
  exact ⟨by decide, fun _ => Int.one_pos⟩

/-- Passes that are too many to be tallied take a text of `2 ^ 32` characters. -/
theorem length_of_mergeAll_eq_error {text : String} {code : List Instruction}
    (h : parse text = .ok code) (hlength : text.length < 2 ^ 63) {e : Overflow}
    (hmerge : Stream.mergeAll code = .error e) : 2 ^ 32 ≤ text.length := by
  obtain ⟨-, hcounts⟩ := basic_of_parse h
  exact Nat.le_trans (Stream.counts_of_mergeAll_eq_error (upwards_of_parse h) (fits_of_parse h)
    (by omega) hmerge) hcounts

end Source

/-! ## 2. Through the passes -/

/-- Merging makes no instruction that has no symbol. -/
theorem Tree.Rewrites.basic {t t' : Tree} (h : t.Rewrites t') (ht : ∀ i ∈ t.code, i.Basic) :
    ∀ i ∈ t'.code, i.Basic := by
  induction h with
  | refl => exact ht
  | trans _ _ ih ih' => exact ih' (ih ht)
  | step _ ih =>
    rw [code_step, List.forall_mem_cons] at *
    exact ⟨ht.1, ih ht.2⟩
  | block _ _ ihb ihr =>
    simp only [code_block, List.forall_mem_cons, List.forall_mem_append] at *
    exact ⟨ht.1, ihb ht.2.1, ht.2.2.1, ihr ht.2.2.2⟩
  | join _ _ rest =>
    simp only [code_step, List.forall_mem_cons] at *
    exact ⟨ht.1, ht.2.2⟩
  | cancel _ rest =>
    simp only [code_step, List.forall_mem_cons] at *
    exact ⟨ht.1, ht.2.2⟩
  | @turn i _ op _ opposite rest =>
    simp only [code_step, List.forall_mem_cons] at *
    refine ⟨⟨?_, ht.1.2⟩, ht.2⟩
    cases hop : i.opcode <;> simp [hop, Opcode.opposite?] at opposite <;> subst opposite <;>
      simp [Opcode.symbol?]
  | drop _ _ rest =>
    rw [code_step, List.forall_mem_cons] at ht
    exact ht.2

namespace Target

/-- Every target expresses the instructions of the source language. -/
theorem expresses_basic (target : Target) {i : Instruction} (h : i.Basic)
    (htally : i.tally < 2 ^ 61) : target.Expresses i := by
  obtain ⟨hsymbol, hoffset⟩ := h
  refine ⟨fun _ => hsymbol, fun hpattern => ?_, fun hdiv => ?_, fun hmove => ?_, ?_⟩
  · simp only [List.mem_cons, List.not_mem_nil, or_false] at hpattern
    rcases hpattern with hop | hop | hop <;> simp [hop, Opcode.symbol?] at hsymbol
  · simp [hdiv, Opcode.symbol?] at hsymbol
  · rwa [hmove.tally_eq] at htally
  · simp [hoffset]

/-- A target whose loops may be flattened expresses what comes of it. -/
theorem expresses_made {target : Target} (haccepts : target.acceptsFlattening = true)
    {reach : Nat} (hreach : reach < 2 ^ 61) {i : Instruction}
    (h : Flattener.Makes target reach i) : target.Expresses i := by
  unfold Flattener.Makes at h
  refine ⟨fun hsymbols => ?_, fun hpattern => ?_, fun hdiv => ?_, fun hmove => ?_,
    fun hdistance => ?_⟩
  · simp [hsymbols, acceptsFlattening] at haccepts
  · simp only [List.mem_cons, List.not_mem_nil, or_false] at hpattern
    rcases hpattern with hop | hop | hop <;> simpa [hop] using h
  · simpa [hdiv] using h
  · rcases hmove with hop | hop <;> simp [hop] at h
  · simp only [List.mem_cons, List.not_mem_nil, or_false] at hdistance
    rcases hdistance with hop | hop
    · simp only [hop] at h
      omega
    · simp only [hop] at h
      simp [h]

end Target

namespace Stream

variable {target : Target} {code : List Instruction}

theorem reads_reverse (code : List Instruction) : reads code.reverse = reads code := by
  simp [reads]

theorem reads_eq_zero (h : ∀ i ∈ code, i.opcode ≠ .read) : reads code = 0 := by
  induction code with
  | nil => rfl
  | cons i rest ih =>
    rw [List.forall_mem_cons] at h
    rw [reads_cons, ih h.2, Instruction.reads, if_neg h.1]

end Stream

namespace Flattener

variable {target : Target} {r r' : Flattener} {start : Instruction}
  {rest rest' : List Instruction}

theorem reads_guarded {body terms : List Instruction} (h : products 0 [] body = .ok terms)
    (start : Instruction) (drop : Int) (close : Instruction) :
    Stream.reads (guarded start drop terms close) = 0 := by
  refine Stream.reads_eq_zero fun i hi => ?_
  simp only [guarded, List.cons_append, List.mem_cons, List.mem_append, List.not_mem_nil,
    or_false] at hi
  rcases hi with rfl | (hi | hi) | rfl
  · simp
  · split at hi
    · cases hi
    · simp [List.mem_singleton.1 hi]
  · obtain ⟨_, -, -, rfl⟩ := mem_products h hi
    simp [Deposit.product]
  · simp

theorem reads_finishCell (h : r.finishCell start rest = .ok (r', rest')) :
    Stream.reads r'.output + Stream.reads rest' ≤ Stream.reads r.output + Stream.reads rest := by
  rcases finishCell_cases h with ⟨rfl, rfl⟩ | ⟨next, -, rfl, rfl⟩
  · simp [putClear, Instruction.reads]
  · have hstore : Instruction.reads ⟨.store, next.amount, 0, next.position⟩ = 0 := by
      simp [Instruction.reads]
    simp only [putStore, Stream.reads_cons, hstore]
    omega

/-- A step writes no read but the one that it takes. -/
theorem reads_step {i : Instruction} (h : r.step target i rest = .ok (r', rest')) :
    Stream.reads r'.output + Stream.reads rest' ≤
      Stream.reads r.output + Stream.reads (i :: rest) := by
  rcases step_cases h with ⟨-, rfl, rfl⟩ | ⟨parts, -, hparts, hloop⟩
  · simp only [keep, Stream.reads_cons]
    omega
  have hcode := congrArg Stream.reads (LoopParts.append_of_find? hparts)
  simp only [List.reverse_nil, List.nil_append, Stream.reads_append, Stream.reads_cons] at hcode
  rw [Stream.reads_cons]
  cases hloop with
  | dead =>
    simp only [dropDead]
    omega
  | kept =>
    simp only [keep, Stream.reads_cons]
    omega
  | @pattern opcode _ verdict =>
    have hother : opcode ≠ .read := by
      rcases opcode_of_pattern (Verdict.patternOpcode_of_ofLoop verdict) with rfl | rfl | rfl <;>
        simp
    rw [putPattern_eq]
    simp only [Stream.reads_cons, Instruction.reads, hother, if_false]
    omega
  | clear _ _ finish =>
    have hfinish := reads_finishCell finish
    have hsplit := congrArg Stream.reads (settled_append_held r)
    rw [Stream.reads_append, Stream.reads_reverse, Stream.reads_reverse] at hsplit
    rw [clear_eq] at hfinish
    simp only at hfinish
    omega
  | multiply _ verdict finish =>
    have hfinish := reads_finishCell finish
    rw [multiply_eq] at hfinish
    simp only [Stream.reads_append, Stream.reads_reverse,
      reads_guarded (Verdict.multiplies_of_ofLoop verdict).terms] at hfinish
    omega

/-- **Flattening adds no read.** -/
theorem reads_run {final : Flattener} {code : List Instruction}
    (h : run target r code = .ok final) :
    Stream.reads final.output ≤ Stream.reads r.output + Stream.reads code := by
  fun_induction run target r code with
  | case1 =>
    cases h
    exact Nat.le_add_right _ _
  | case2 => cases h
  | case3 r i rest r' rest' hstep _ ih => exact Nat.le_trans (ih h) (reads_step hstep)

end Flattener

namespace Stream

variable {target : Target} {code : List Instruction}

/-- A stream of basic instructions is optimized, or it cannot be merged to the
end. The target expresses what comes of it. -/
theorem optimize_cases (target : Target) (hwf : WellFormed code) (hbasic : ∀ i ∈ code, i.Basic)
    (hcounts : counts code < 2 ^ 61) :
    (∃ (optimized : Optimized) (t : Tree), optimize target code = .ok optimized ∧
        t.code = optimized.code ∧ (∀ i ∈ t.code, target.Expresses i) ∧
        reads t.code ≤ counts code) ∨
      optimize target code = .error (.overflow .add) ∧ mergeAll code = .error .add := by
  obtain ⟨t, rfl⟩ := hwf.exists_tree
  have hfits : counts t.code < 2 ^ 63 := by omega
  rcases mergeAll_of_counts hfits with ⟨merged, hmerge, hle⟩ | ⟨hfails, -⟩
  · refine .inl ?_
    obtain ⟨t₁, hrewrites, rfl⟩ := rewrites_of_mergeAll hmerge
    have hbasic₁ := hrewrites.basic hbasic
    have hexpresses : ∀ i ∈ t₁.code, target.Expresses i := fun i hi =>
      target.expresses_basic (hbasic₁ i hi) (by have := tally_le_counts hi; omega)
    have hreads : reads t₁.code ≤ counts t.code := Nat.le_trans (reads_le_counts _) hle
    have hmerged : FlattenError.ofOverflow (mergeAll t.code) = .ok t₁.code :=
      FlattenError.ofOverflow_eq_ok_iff.2 hmerge
    by_cases haccepts : target.acceptsFlattening = true
    · obtain ⟨final, hrun⟩ := Flattener.exists_run target {} ⟨[], t₁.enter_code []⟩
        (Nat.lt_of_le_of_lt hle hfits)
      have hflatten : flattenWithStats target t₁.code = .ok (final.output.reverse, final.stats) :=
        bind_eq_ok_iff.2 ⟨final, hrun, rfl⟩
      obtain ⟨t₂, -, hcode⟩ := flattens_of_flattenWithStats hflatten
      refine ⟨⟨t₁.code, some (final.output.reverse, final.stats)⟩, t₂, ?_, hcode,
        fun i hi => ?_, ?_⟩
      · refine bind_eq_ok_iff.2 ⟨_, hmerged, ?_⟩
        simp only [haccepts, if_true]
        exact bind_eq_ok_iff.2 ⟨_, hflatten, rfl⟩
      · rw [hcode, List.mem_reverse] at hi
        rcases Flattener.mem_output_of_run hrun hi with hi | hi | hi
        · cases hi
        · exact hexpresses i hi
        · exact Target.expresses_made haccepts (by omega) hi
      · have hrest := Flattener.reads_run hrun
        rw [hcode, reads_reverse]
        exact Nat.le_trans (by simpa using hrest) hreads
    · refine ⟨⟨t₁.code, none⟩, t₁, bind_eq_ok_iff.2 ⟨_, hmerged, ?_⟩, rfl, hexpresses, hreads⟩
      simp [haccepts, pure, Except.pure]
  · refine .inr ⟨?_, hfails⟩
    simp [optimize, hfails, FlattenError.ofOverflow, bind, Except.bind]

/-- Into a sink without a limit a stream is written in full, if its reads can be
tallied. -/
theorem outcome_emit (options : EmitOptions) (hsize : options.memorySize * 32 < 2 ^ 64) {t : Tree}
    (ht : ∀ i ∈ t.code, target.Expresses i) {sink : Sink} (hsink : sink.limit = none) :
    (Stream.emit target options t.code sink).outcome =
      (fullOutcome target t.code).mapError .fault := by
  rw [Stream.emit, Emission.deliver_of_unlimited _ hsink, outcome_emission target options hsize ht]

end Stream

/-! ## 3. Compilations -/

/-- The stream of a text is written in full, if its reads can be tallied. -/
theorem Source.outcome_emit {text : String} {code : List Instruction}
    (hparse : Source.parse text = .ok code) (hlength : text.length < 2 ^ 61) (target : Target)
    (options : EmitOptions) (hsize : options.memorySize * 32 < 2 ^ 64) {sink : Sink}
    (hsink : sink.limit = none) :
    (Stream.emit target options code sink).outcome =
      (Stream.fullOutcome target code).mapError .fault := by
  obtain ⟨hbasic, hcounts⟩ := Source.basic_of_parse hparse
  obtain ⟨t, rfl⟩ := (Source.wellFormed_of_parse hparse).1.exists_tree
  refine Stream.outcome_emit options hsize (fun i hi => ?_) hsink
  exact target.expresses_basic (hbasic i hi) (by have := Stream.tally_le_counts hi; omega)

/-- What the passes make of the stream of a text. They succeed if it is shorter
than `2 ^ 32` characters. The target expresses what comes of them, which has
no more reads than the text has characters. -/
theorem Source.optimize_cases {text : String} {code : List Instruction}
    (hparse : Source.parse text = .ok code) (hlength : text.length < 2 ^ 61) (target : Target) :
    (∃ (optimized : Optimized) (t : Tree), Stream.optimize target code = .ok optimized ∧
        t.code = optimized.code ∧ (∀ i ∈ t.code, target.Expresses i) ∧
        Stream.reads t.code ≤ text.length) ∨
      Stream.optimize target code = .error (.overflow .add) ∧ 2 ^ 32 ≤ text.length := by
  obtain ⟨hbasic, hcounts⟩ := Source.basic_of_parse hparse
  obtain ⟨hwf, -⟩ := Source.wellFormed_of_parse hparse
  rcases Stream.optimize_cases target hwf hbasic (by omega) with
    ⟨optimized, t, hoptimize, hcode, hexpresses, hreads⟩ | ⟨hfails, hmerge⟩
  · exact .inl ⟨optimized, t, hoptimize, hcode, hexpresses, Nat.le_trans hreads hcounts⟩
  · exact .inr ⟨hfails, Source.length_of_mergeAll_eq_error hparse (by omega) hmerge⟩

/-- A text that does nothing but read, so many times. -/
theorem Source.exists_reading_text (count : Nat) :
    ∃ (text : String) (code : List Instruction), text.length = count ∧
      Source.parse text = .ok code ∧ Stream.reads code = count ∧
      ∀ i ∈ code, i.opcode = .read ∧ i.value = 1 := by
  have hunits : ∀ i ∈ List.replicate count (⟨.read, 1, 0, none⟩ : Instruction), i.IsUnit := by
    intro i hi
    rw [List.eq_of_mem_replicate hi]
    exact ⟨rfl, rfl, rfl, rfl⟩
  obtain ⟨text, code, hparse, hlength, hplaces⟩ := Stream.exists_text_of_units hunits
  have hread : ∀ i ∈ code, i.opcode = .read ∧ i.value = 1 := by
    intro i hi
    have hmem : i.unplaced ∈ code.map Instruction.unplaced := List.mem_map_of_mem hi
    rw [hplaces] at hmem
    have hunplaced := List.eq_of_mem_replicate hmem
    exact ⟨congrArg Instruction.opcode hunplaced, congrArg Instruction.value hunplaced⟩
  rw [List.length_replicate] at hlength
  refine ⟨text, code, hlength, hparse, ?_, hread⟩
  have hcount : code.length = count := by simpa using congrArg List.length hplaces
  have hones : code.map Instruction.reads = List.replicate code.length 1 :=
    List.map_eq_replicate_iff.2 fun i hi => by
      simp [Instruction.reads, (hread i hi).1, (hread i hi).2]
  rw [Stream.reads, hones, List.sum_replicate_nat, Nat.mul_one, hcount]

end TapeCompiler
