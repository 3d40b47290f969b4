/-
TapeCompiler.Proofs.QbeLayout — where the code of an instruction stands.

The lines of a stream are those of its instructions, one after the other,
between a header and a footer. `Qbe.lineOf` is where the lines of the
`k`-th instruction start, and `Qbe.codeLine` is where they start behind
its comment, if it has one.

A jump finds its label by name. Names of different labels differ
(`Qbe.Label.name_injective`), and no label is written twice in the code of
a well-formed stream (`Qbe.nodup_labelsOf`): those of a block are told
apart by the block's own label, those of a read by the number of the read.
So a jump leads to the line where its label was written
(`Qbe.target?_of_line`).
-/
import TapeCompiler.Proofs.EmitTotal
import TapeCompiler.Proofs.QbeMachine
import Std.Data.String.ToInt

namespace TapeCompiler

namespace Qbe

/-! ## 1. Lines of an instruction -/

variable {options : EmitOptions} {code : List Instruction}

/-- The code of a stream, with its tape at an address. -/
def image (options : EmitOptions) (code : List Instruction) (base : Nat) : Image :=
  ⟨(emission options code).pieces.toList, options.width, base⟩

/-- The emitter's state before the `k`-th instruction. -/
def stateAt (options : EmitOptions) (code : List Instruction) (k : Nat) : State :=
  (emitter options).stateAfter {} (code.take k)

/-- The lines before the `k`-th instruction. -/
def linesBefore (options : EmitOptions) (code : List Instruction) (k : Nat) : List Line :=
  (header options).pieces ++ (emitter options).piecesOf {} (code.take k)

/-- The line where the code of the `k`-th instruction starts, or its comment. -/
def lineOf (options : EmitOptions) (code : List Instruction) (k : Nat) : Nat :=
  (linesBefore options code k).length

/-- The line where the code of the `k`-th instruction starts. -/
def codeLine (options : EmitOptions) (code : List Instruction) (k : Nat) : Nat :=
  lineOf options code k + if options.comments then 1 else 0

/-- The comment before an instruction, if there is one. -/
def comment (options : EmitOptions) (i : Instruction) : List Line :=
  if options.comments then [.comment i.describe] else []

theorem length_comment (i : Instruction) :
    (comment options i).length = if options.comments then 1 else 0 := by
  unfold comment
  split <;> rfl

theorem pieces_step_emitter (s : State) (i : Instruction) :
    ((emitter options).step s i).pieces =
      comment options i ++ (step options.width s i).pieces := by
  unfold emitter Emitter.withComments comment
  split <;> rfl

/-- The lines of reads that could all be counted. -/
theorem pieces_of_read {w : Width} {s s' : State} {i : Instruction} (hop : i.opcode = .read)
    (h : (step w s i).result = .ok s') :
    (step w s i).pieces =
      (List.range i.value.toNat).flatMap (fun k => readLines w (s.reads + k + 1)) := by
  simp only [step, hop, putReads] at h ⊢
  split at h
  · rename_i hroom
    simp only [hroom, if_true, Nat.min_eq_left, Written.ok]
  · cases h

theorem drop_of_getElem? {k : Nat} {i : Instruction} (hi : code[k]? = some i) :
    code.drop k = i :: code.drop (k + 1) := by
  rw [List.drop_eq_getElem?_toList_append, hi]
  rfl

theorem start_emitter : (emitter options).start = header options := by
  rw [emitter, Emitter.start_withComments]
  rfl

theorem finish_emitter : (emitter options).finish = finish := by
  rw [emitter, Emitter.finish_withComments]
  rfl

/-- What stands behind the code of a stream that leaves no loop open. -/
def footer : List Line := [.instr .ret, .functionClose]

theorem pieces_finish {s : State} (h : (finish s).result = .ok []) :
    (finish s).pieces = footer := by
  simp only [finish, Written.ok, Except.ok.injEq] at h ⊢
  split at h
  · rename_i hempty
    rw [List.isEmpty_iff.1 hempty]
    rfl
  · cases h

/-- What stands before the code of a stream, if its tape can be measured. -/
theorem eq_of_header {s : State} (h : (header options).result = .ok s) :
    s = {} ∧ (header options).pieces =
      [.data (options.memorySize * options.width.bytes), .blank, .functionOpen, .label .start,
        .instr .tapeStart, .instr (.copy .v (.const 0))] := by
  unfold header Size.mul at h ⊢
  split at h
  · cases h
  · rename_i bytes hbytes
    cases h
    split at hbytes
    · cases hbytes
      exact ⟨rfl, rfl⟩
    · cases hbytes

theorem passes_drop (hpasses : (emitter options).Passes {} code) (k : Nat) :
    (emitter options).Passes (stateAt options code k) (code.drop k) := by
  rw [← List.take_append_drop k code] at hpasses
  exact (Emitter.passes_append.1 hpasses).2

section Written

variable (h : (emission options code).outcome = .ok []) (base : Nat)

include h

/-- What is written of a stream that nothing was amiss with, from the `k`-th
instruction on. -/
theorem lines_image (k : Nat) :
    (image options code base).lines =
      linesBefore options code k ++
        ((emitter options).piecesOf (stateAt options code k) (code.drop k) ++ footer) := by
  obtain ⟨s, hstart, hlines, hfinish⟩ := Emitter.pieces_emit h
  rw [start_emitter] at hstart hlines
  rw [finish_emitter] at hfinish hlines
  obtain ⟨rfl, -⟩ := eq_of_header hstart
  rw [image, emission, hlines, pieces_finish hfinish, linesBefore, stateAt]
  have hsplit := (emitter options).piecesOf_append {} (code.take k) (code.drop k)
  rw [List.take_append_drop] at hsplit
  rw [hsplit]
  simp only [List.append_assoc]

/-- Every instruction of the stream was written. -/
theorem passes_of_outcome : (emitter options).Passes {} code := by
  obtain ⟨s, hstart, -⟩ := Emitter.pieces_emit h
  have hheader := hstart
  rw [start_emitter] at hheader
  obtain ⟨rfl, -⟩ := eq_of_header hheader
  exact Emitter.passes_of_emit hstart h

theorem exists_result {k : Nat} {i : Instruction} (hi : code[k]? = some i) :
    ∃ s, (step options.width (stateAt options code k) i).result = .ok s := by
  have hpasses := passes_drop (passes_of_outcome h) k
  rw [drop_of_getElem? hi] at hpasses
  exact ⟨_, (result_step_emitter ..).symm.trans hpasses.1⟩

/-- The code of an instruction stands at its line, behind its comment. -/
theorem at_lineOf {k : Nat} {i : Instruction} (hi : code[k]? = some i) :
    (image options code base).At (lineOf options code k)
      (comment options i ++ (step options.width (stateAt options code k) i).pieces) := by
  refine ⟨(emitter options).piecesOf ((emitter options).next (stateAt options code k) i)
    (code.drop (k + 1)) ++ footer, ?_⟩
  rw [lines_image h base k, lineOf, List.drop_left, drop_of_getElem? hi, Emitter.piecesOf,
    pieces_step_emitter, List.append_assoc]

theorem at_codeLine {k : Nat} {i : Instruction} (hi : code[k]? = some i) :
    (image options code base).At (codeLine options code k)
      (step options.width (stateAt options code k) i).pieces := by
  have hat := (at_lineOf h base hi).right
  rwa [length_comment] at hat

theorem pieces_header :
    (header options).pieces =
      [.data (options.memorySize * options.width.bytes), .blank, .functionOpen, .label .start,
        .instr .tapeStart, .instr (.copy .v (.const 0))] := by
  obtain ⟨s, hstart, -⟩ := Emitter.pieces_emit h
  rw [start_emitter] at hstart
  exact (eq_of_header hstart).2

/-- The tape has room for all cells. -/
theorem size_image :
    (image options code base).size = options.memorySize * options.width.bytes := by
  rw [Image.size, lines_image h base 0, linesBefore, pieces_header h]
  rfl

/-- The function starts at the first label. -/
theorem target?_start : (image options code base).target? .start = some 3 := by
  rw [Image.target?, lines_image h base 0, linesBefore, pieces_header h]
  simp [List.findIdx?_cons, Line.label?]

/-- Behind the last instruction the function ends. -/
theorem returns_at_end (f : Frame) :
    (image options code base).Returns ⟨f, lineOf options code code.length⟩ := by
  have hlines := lines_image h base code.length
  rw [List.drop_length, Emitter.piecesOf, List.nil_append] at hlines
  rw [Image.Returns, hlines, lineOf, List.getElem?_append_right (Nat.le_refl _), Nat.sub_self]
  rfl

/-- The comment of an instruction is passed. -/
theorem reaches_codeLine {k : Nat} {i : Instruction} (hi : code[k]? = some i) (f : Frame) :
    (image options code base).Reaches ⟨f, lineOf options code k⟩ ⟨f, codeLine options code k⟩ := by
  have hat := (at_lineOf h base hi).left
  unfold codeLine
  unfold comment at hat
  split
  · rename_i hcomments
    rw [if_pos hcomments] at hat
    exact Image.reaches_pass hat.head (.inr ⟨_, rfl⟩)
  · exact .refl

end Written

theorem lineOf_succ {k : Nat} {i : Instruction} (hi : code[k]? = some i) :
    lineOf options code (k + 1) = codeLine options code k +
      (step options.width (stateAt options code k) i).pieces.length := by
  have htake : code.take (k + 1) = code.take k ++ [i] := by
    rw [List.take_add_one, hi]
    rfl
  rw [codeLine, lineOf, lineOf, linesBefore, linesBefore, htake, Emitter.piecesOf_append,
    ← stateAt, Emitter.piecesOf, Emitter.piecesOf, List.append_nil, pieces_step_emitter]
  simp only [List.length_append, length_comment]
  omega

/-! ## 2. Labels -/

/-- Different labels have different names: the first letters tell their kinds
apart, or else the last ones do. -/
theorem Label.name_injective {l l' : Label} (h : l.name = l'.name) : l = l' := by
  have hfront := congrArg String.toList h
  have hback := congrArg List.reverse hfront
  cases l <;> cases l' <;>
    simp [-Nat.toList_repr, name, toString_text, String.toList_inj, Int.repr_inj, Nat.repr_inj]
      at hfront hback ⊢
  all_goals exact hfront

/-- The labels of the reads `first + 1, …, first + count`. -/
def readLabels (first count : Nat) : List Label :=
  (List.range count).flatMap (fun k => [.readByte (first + k + 1), .readDone (first + k + 1)])

/-- The labels in the code of an instruction, behind a number of reads. -/
def labelsIn (reads : Nat) (i : Instruction) : List Label :=
  match i.opcode with
  | .read => readLabels reads i.value.toNat
  | .loopStart => [.loopHead i.value, .loopBody i.value]
  | .loopEnd => [.loopExit i.value]
  | .guard => [.guardBody i.value]
  | .label => [.guardEnd i.value]
  | _ => []

/-- The labels in the code of some instructions. -/
def labelsOf (reads : Nat) : List Instruction → List Label
  | [] => []
  | i :: rest => labelsIn reads i ++ labelsOf (reads + i.reads) rest

/-- The labels among some lines. -/
def labelsAmong (lines : List Line) : List Label := lines.filterMap Line.label?

@[simp] theorem labelsAmong_nil : labelsAmong [] = [] := rfl

@[simp] theorem labelsAmong_append (lines lines' : List Line) :
    labelsAmong (lines ++ lines') = labelsAmong lines ++ labelsAmong lines' :=
  List.filterMap_append

@[simp] theorem labelsAmong_instr (code : Instr) (lines : List Line) :
    labelsAmong (.instr code :: lines) = labelsAmong lines := rfl

@[simp] theorem labelsAmong_label (l : Label) (lines : List Line) :
    labelsAmong (.label l :: lines) = l :: labelsAmong lines := rfl

@[simp] theorem labelsAmong_comment (i : Instruction) : labelsAmong (comment options i) = [] := by
  unfold comment
  split <;> rfl

@[simp] theorem labelsAmong_putCell (w : Width) (value addr : Temp) :
    labelsAmong (putCell w value addr) = [] := by
  unfold putCell
  split <;> rfl

/-- The labels in the lines of an instruction that is written. -/
theorem labelsAmong_step {w : Width} {s s' : State} {i : Instruction}
    (h : (step w s i).result = .ok s') : labelsAmong (step w s i).pieces = labelsIn s.reads i := by
  cases hop : i.opcode with
  | read =>
    simp only [pieces_of_read hop h, labelsIn, hop, readLabels]
    rw [labelsAmong, List.filterMap_flatMap]
    congr 1
    funext k
    change labelsAmong (readLines w (s.reads + k + 1)) = _
    simp [readLines]
  | write =>
    have hnone : Line.label? (.instr (.putchar .v)) = none := rfl
    simp [step, labelsIn, hop, Written.ok, labelsAmong, hnone]
  | _ =>
    simp only [step, labelsIn, hop, Written.ok, Written.fail]
    repeat' split
    all_goals simp [closeLoop]

/-- The labels in the lines of a stream are those of its instructions. -/
theorem labelsAmong_piecesOf {s : State} {code : List Instruction}
    (h : (emitter options).Passes s code) :
    labelsAmong ((emitter options).piecesOf s code) = labelsOf s.reads code := by
  induction code generalizing s with
  | nil => rfl
  | cons i rest ih =>
    obtain ⟨hi, hrest⟩ := h
    rw [result_step_emitter] at hi
    rw [Emitter.piecesOf, labelsAmong_append, ih hrest, reads_of_step hi, pieces_step_emitter,
      labelsAmong_append, labelsAmong_comment, List.nil_append, labelsAmong_step hi, labelsOf]

end Qbe

/-! ## 3. No label is written twice -/

/-- The labels of the closing brackets, in the order in which these stand. -/
def Stream.closers (code : List Instruction) : List Int :=
  (code.filter (fun i => i.opcode.closesBlock)).map Instruction.value

namespace Stream

theorem closers_cons_of_closes {i : Instruction} (h : i.opcode.closesBlock = true)
    (code : List Instruction) : closers (i :: code) = i.value :: closers code := by
  simp [closers, h]

theorem closers_cons_of_not_closes {i : Instruction} (h : i.opcode.closesBlock = false)
    (code : List Instruction) : closers (i :: code) = closers code := by
  simp [closers, h]

theorem closers_append (code code' : List Instruction) :
    closers (code ++ code') = closers code ++ closers code' := by
  simp [closers]

/-- Each block is closed by its own label. -/
theorem closers_perm (t : Tree) : (closers t.code).Perm (labels t.code) := by
  induction t with
  | done => exact .refl _
  | step i plain rest ih =>
    rw [Tree.code_step, closers_cons_of_not_closes plain.2, labels_cons_of_not_opens plain.1]
    exact ih
  | block start body close closes rest ihb ihr =>
    have hstart : start.opcode.closesBlock = false := by
      rcases closes.kinds with ⟨hs, -⟩ | ⟨hs, -⟩ <;> rw [hs] <;> rfl
    rw [Tree.labels_block, Tree.code_block, closers_cons_of_not_closes hstart, closers_append,
      closers_cons_of_closes closes.closes, ← closes.2]
    exact List.perm_middle.trans ((ihb.append ihr).cons _)

theorem WellFormed.closers_nodup {code : List Instruction} (h : WellFormed code) :
    (closers code).Nodup := by
  obtain ⟨t, rfl⟩ := h.exists_tree
  exact (closers_perm t).nodup_iff.2 h.labels_nodup

end Stream

namespace Qbe

variable {options : EmitOptions} {code : List Instruction} {base : Nat}

/-- Where a label of some instructions can come from, if `reads` reads stood
before them. -/
def Label.Within (reads : Nat) (code : List Instruction) : Label → Prop
  | .start => False
  | .loopHead n | .loopBody n | .guardBody n => n ∈ Stream.labels code
  | .loopExit n | .guardEnd n => n ∈ Stream.closers code
  | .readByte k | .readDone k => reads < k

theorem mem_readLabels {first count : Nat} {l : Label} (h : l ∈ readLabels first count) :
    ∃ k, first < k ∧ k ≤ first + count ∧ (l = .readByte k ∨ l = .readDone k) := by
  simp only [readLabels, List.mem_flatMap, List.mem_range] at h
  obtain ⟨k, hk, hl⟩ := h
  exact ⟨first + k + 1, by omega, by omega, by simpa using hl⟩

theorem nodup_readLabels (first count : Nat) : (readLabels first count).Nodup := by
  induction count with
  | zero => exact List.nodup_nil
  | succ count ih =>
    have hsnoc : readLabels first (count + 1) = readLabels first count ++
        [.readByte (first + count + 1), .readDone (first + count + 1)] := by
      simp [readLabels, List.range_succ]
    rw [hsnoc, List.nodup_append]
    refine ⟨ih, by simp, ?_⟩
    rintro l hl _ hlast rfl
    obtain ⟨k, -, hk, hlk⟩ := mem_readLabels hl
    rcases hlk with rfl | rfl <;> simp at hlast <;> omega

/-- What a label of one instruction tells about it. -/
def Label.Of (reads : Nat) (i : Instruction) : Label → Prop
  | .start => False
  | .loopHead n | .loopBody n | .guardBody n => i.opcode.opensBlock = true ∧ n = i.value
  | .loopExit n | .guardEnd n => i.opcode.closesBlock = true ∧ n = i.value
  | .readByte k | .readDone k => reads < k ∧ k ≤ reads + i.reads

theorem of_mem_labelsIn {reads : Nat} {i : Instruction} {l : Label} (h : l ∈ labelsIn reads i) :
    l.Of reads i := by
  unfold labelsIn at h
  split at h
  · rename_i hop
    obtain ⟨k, hk, hle, rfl | rfl⟩ := mem_readLabels h <;>
      exact ⟨hk, by simpa [Instruction.reads, hop] using hle⟩
  · rename_i hop
    simp only [List.mem_cons, List.not_mem_nil, or_false] at h
    rcases h with rfl | rfl <;> simp [Label.Of, hop, Opcode.opensBlock]
  · rename_i hop
    rw [List.mem_singleton.1 h]
    simp [Label.Of, hop, Opcode.closesBlock]
  · rename_i hop
    rw [List.mem_singleton.1 h]
    simp [Label.Of, hop, Opcode.opensBlock]
  · rename_i hop
    rw [List.mem_singleton.1 h]
    simp [Label.Of, hop, Opcode.closesBlock]
  · cases h

theorem nodup_labelsIn (reads : Nat) (i : Instruction) : (labelsIn reads i).Nodup := by
  unfold labelsIn
  split
  · exact nodup_readLabels ..
  all_goals simp

theorem Label.Of.within {reads : Nat} {i : Instruction} {l : Label} (h : l.Of reads i)
    (rest : List Instruction) : l.Within reads (i :: rest) := by
  cases l with
  | start => exact h
  | loopHead n | loopBody n | guardBody n =>
    obtain ⟨hopens, rfl⟩ := h
    simp [Within, Stream.labels_cons_of_opens hopens]
  | loopExit n | guardEnd n =>
    obtain ⟨hcloses, rfl⟩ := h
    simp [Within, Stream.closers_cons_of_closes hcloses]
  | readByte k | readDone k => exact h.1

theorem Label.Within.cons {reads : Nat} {i : Instruction} {rest : List Instruction} {l : Label}
    (h : l.Within (reads + i.reads) rest) : l.Within reads (i :: rest) := by
  have hlabels : ∀ n ∈ Stream.labels rest, n ∈ Stream.labels (i :: rest) := fun n hn => by
    cases hopens : i.opcode.opensBlock with
    | true => exact Stream.labels_cons_of_opens hopens rest ▸ List.mem_cons_of_mem _ hn
    | false => exact Stream.labels_cons_of_not_opens hopens rest ▸ hn
  have hclosers : ∀ n ∈ Stream.closers rest, n ∈ Stream.closers (i :: rest) := fun n hn => by
    cases hcloses : i.opcode.closesBlock with
    | true => exact Stream.closers_cons_of_closes hcloses rest ▸ List.mem_cons_of_mem _ hn
    | false => exact Stream.closers_cons_of_not_closes hcloses rest ▸ hn
  cases l with
  | start => exact h
  | loopHead n | loopBody n | guardBody n => exact hlabels n h
  | loopExit n | guardEnd n => exact hclosers n h
  | readByte k | readDone k => exact Nat.lt_of_le_of_lt (Nat.le_add_right reads i.reads) h

theorem within_of_mem_labelsOf {reads : Nat} {l : Label} (h : l ∈ labelsOf reads code) :
    l.Within reads code := by
  induction code generalizing reads with
  | nil => cases h
  | cons i rest ih =>
    rcases List.mem_append.1 h with h | h
    · exact (of_mem_labelsIn h).within rest
    · exact (ih h).cons

/-- A label of an instruction is none of the code behind it. -/
theorem Label.Of.not_within {reads : Nat} {i : Instruction} {rest : List Instruction} {l : Label}
    (h : l.Of reads i) (hopen : (Stream.labels (i :: rest)).Nodup)
    (hclose : (Stream.closers (i :: rest)).Nodup) : ¬ l.Within (reads + i.reads) rest := by
  intro hrest
  cases l with
  | start => exact h
  | loopHead n | loopBody n | guardBody n =>
    obtain ⟨hopens, rfl⟩ := h
    rw [Stream.labels_cons_of_opens hopens] at hopen
    exact (List.nodup_cons.1 hopen).1 hrest
  | loopExit n | guardEnd n =>
    obtain ⟨hcloses, rfl⟩ := h
    rw [Stream.closers_cons_of_closes hcloses] at hclose
    exact (List.nodup_cons.1 hclose).1 hrest
  | readByte k | readDone k => exact absurd h.2 (Nat.not_le_of_lt hrest)

/-- **No label is written twice.** -/
theorem nodup_labelsOf {reads : Nat} (hopen : (Stream.labels code).Nodup)
    (hclose : (Stream.closers code).Nodup) : (labelsOf reads code).Nodup := by
  induction code generalizing reads with
  | nil => exact List.nodup_nil
  | cons i rest ih =>
    have hopen' : (Stream.labels rest).Nodup :=
      hopen.sublist (((List.sublist_cons_self i rest).filter _).map _)
    have hclose' : (Stream.closers rest).Nodup :=
      hclose.sublist (((List.sublist_cons_self i rest).filter _).map _)
    refine List.nodup_append.2 ⟨nodup_labelsIn reads i, ih hopen' hclose', ?_⟩
    rintro l hl _ hrest rfl
    exact (of_mem_labelsIn hl).not_within hopen hclose (within_of_mem_labelsOf hrest)

/-! ## 4. Jumps -/

/-- A jump leads to where its label stands, if names are not repeated. -/
theorem Image.target?_of_line {img : Image} (hnodup : (labelsAmong img.lines).Nodup) {line : Nat}
    {l : Label} (h : img.lines[line]? = some (.label l)) : img.target? l = some line := by
  obtain ⟨hline, hget⟩ := List.getElem?_eq_some_iff.1 h
  refine List.findIdx?_eq_some_iff_getElem.2 ⟨hline, by simp [hget, Line.label?], ?_⟩
  intro other hother hsame
  have hapart := List.pairwise_iff_getElem.1 (List.pairwise_filterMap.1 hnodup) other line
    (Nat.lt_trans hother hline) hline hother
  obtain ⟨l', hl', hname⟩ := (Option.any_eq_true ..).1 hsame
  exact hapart l' hl' l (by rw [hget]; rfl) (Label.name_injective (by simpa using hname))

/-- A jump in the code of a well-formed stream leads to where its label was
written. -/
theorem target?_of_line (hwf : Stream.WellFormed code)
    (h : (emission options code).outcome = .ok []) {line : Nat} {l : Label}
    (hline : (image options code base).lines[line]? = some (.label l)) :
    (image options code base).target? l = some line := by
  refine Image.target?_of_line ?_ hline
  have hlabels : labelsAmong (image options code base).lines = .start :: labelsOf 0 code := by
    have hpasses := passes_drop (passes_of_outcome h) 0
    rw [lines_image h base 0, linesBefore, pieces_header h, labelsAmong_append, labelsAmong_append,
      labelsAmong_append, labelsAmong_piecesOf hpasses]
    exact congrArg (Label.start :: ·) (List.append_nil _)
  rw [hlabels, List.nodup_cons]
  exact ⟨fun hmem => within_of_mem_labelsOf hmem,
    nodup_labelsOf hwf.labels_nodup hwf.closers_nodup⟩

end Qbe

end TapeCompiler
