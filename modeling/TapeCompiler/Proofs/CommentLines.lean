/-
TapeCompiler.Proofs.CommentLines — comments do not change the code.

With comments and without, a format writes a stream in two runs that go
through the same states: the note about an instruction is written before its
code, and nothing depends on it. So the runs end alike, and the pieces of the
one are those of the other with the notes left out (`Emitter.filter_emit`).

That much holds of any emitter. That the notes can be found in the finished
text takes more: every piece is one line, notes look like comments, and no
line of code looks like one, whatever numbers, labels and names stand in it.
This is checked for each format by itself: `Dialect.Legible.writes` for those
with indentation, `Qbe.writes` and `Llvm.writes` for the others. LLVM code
takes the name of the source over into four of its lines, and these are lines
as long as the name has no line end.

`Stream.emit_without_comments` is the main result.
-/
import TapeCompiler.Proofs.TextLines
import TapeCompiler.Proofs.LlvmDebugInfo

namespace TapeCompiler

open Llvm (lineEnds textLines)

/-- The text without the lines that are comments. -/
def Target.withoutComments (target : Target) (text : String) : String :=
  "\n".intercalate ((textLines text).filter (fun line => !target.isComment line))

/-! ## 1. Texts -/

section Texts

variable {pieces : List String}

/-- Lines, joined by their ends, are the pieces they came from. -/
theorem intercalate_lines (h : ∀ piece ∈ pieces, IsLine piece) :
    "\n".intercalate (pieces.map withoutEnd ++ [""]) = String.join pieces := by
  induction pieces with
  | nil => rfl
  | cons piece rest ih =>
    rw [List.forall_mem_cons] at h
    have hpiece : withoutEnd piece ++ "\n" = piece := by
      rw [← String.toList_inj, toList_of_isLine h.1, String.toList_append]
      rfl
    obtain ⟨line, lines, hrest⟩ : ∃ line lines, rest.map withoutEnd ++ [""] = line :: lines :=
      List.exists_cons_of_ne_nil (by simp)
    rw [List.map_cons, List.cons_append, String.join_cons, ← ih h.2, hrest,
      String.intercalate_cons_cons, hpiece]

/-- **Comment lines are pieces.** -/
theorem Target.withoutComments_join (target : Target) (h : ∀ piece ∈ pieces, IsLine piece) :
    target.withoutComments (String.join pieces) =
      String.join (pieces.filter (fun piece => !target.isComment piece)) := by
  have hlast : target.isComment "" = false := by cases target <;> rfl
  have hfilter : ((pieces.map withoutEnd).filter (fun line => !target.isComment line)) =
      (pieces.filter (fun piece => !target.isComment piece)).map withoutEnd := by
    rw [List.filter_map]
    refine congrArg _ (List.filter_congr fun piece hpiece => ?_)
    rw [Function.comp_apply, target.isComment_withoutEnd (h piece hpiece)]
  rw [withoutComments, textLines_of_isLine h, List.filter_append, hfilter,
    ← intercalate_lines fun piece hpiece => h piece (List.mem_of_mem_filter hpiece)]
  simp [hlast]

end Texts

/-! ## 2. Two runs -/

namespace Emitter

variable {σ α : Type} {e : Emitter σ α} {comment : σ → Instruction → α} {keep : α → Bool}
  {holds : σ → Prop}

section TwoRuns

variable (h : e.Writes holds (fun piece => keep piece = true))
  (hcomment : ∀ s i, keep (comment s i) = false)

include h hcomment

/-- The runs stay in step: the one has written what the other has, and notes. -/
theorem filter_run {done done' : Array α} (hdone : done.toList.filter keep = done'.toList) {s : σ}
    (hs : holds s) (code : List Instruction) :
    ((e.annotated comment).run done s code).pieces.toList.filter keep =
        (e.run done' s code).pieces.toList ∧
      ((e.annotated comment).run done s code).outcome = (e.run done' s code).outcome := by
  have happend {done done' : Array α} (hdone : done.toList.filter keep = done'.toList)
      {pieces : List α} (hpieces : ∀ piece ∈ pieces, keep piece = true) :
      (done.append pieces.toArray).toList.filter keep = (done'.append pieces.toArray).toList := by
    simp only [Array.append_eq_append, Array.toList_append, List.filter_append, hdone,
      List.filter_eq_self.2 hpieces]
  induction code generalizing done done' s with
  | nil => exact ⟨happend hdone (h.finish s hs), rfl⟩
  | cons i rest ih =>
    obtain ⟨hpieces, hstate⟩ := h.step s i hs
    have hnote : (done.append (comment s i :: (e.step s i).pieces).toArray).toList.filter keep =
        (done'.append (e.step s i).pieces.toArray).toList := by
      rw [← happend hdone hpieces]
      simp [hcomment]
    simp only [run, annotated]
    cases hresult : (e.step s i).result with
    | error fault => exact ⟨hnote, rfl⟩
    | ok s' => exact ih hnote (hstate s' hresult)

/-- **Without its notes**, a commented emission is the other one. -/
theorem filter_emit (code : List Instruction) :
    ((e.annotated comment).emit code).pieces.toList.filter keep = (e.emit code).pieces.toList ∧
      ((e.annotated comment).emit code).outcome = (e.emit code).outcome := by
  have hdone : e.start.pieces.toArray.toList.filter keep = e.start.pieces.toArray.toList :=
    List.filter_eq_self.2 h.start.1
  have hstart : (e.annotated comment).start = e.start := rfl
  unfold emit
  rw [hstart]
  cases hresult : e.start.result with
  | error fault => exact ⟨hdone, rfl⟩
  | ok s => exact filter_run h hcomment hdone (h.start.2 s hresult) code

end TwoRuns

end Emitter

/-- Two emissions end alike, and the text of the one is that of the other with
the comment lines left out. -/
structure Emission.Uncomments (target : Target) (commented plain : Emission String) : Prop where
  outcome : commented.outcome = plain.outcome
  text : target.withoutComments commented.text = plain.text

/-- The comments of a format can be taken out again, if all that it writes are
lines and the comments look like comments. -/
theorem Emitter.Writes.uncomments {σ α : Type} {e : Emitter σ α} {holds : σ → Prop}
    {target : Target} {render : α → String}
    (h : e.Writes holds (fun piece =>
      IsLine (render piece) ∧ target.isComment (render piece) = false))
    {comment : σ → Instruction → α}
    (hcomment : ∀ s i,
      IsLine (render (comment s i)) ∧ target.isComment (render (comment s i)) = true)
    (code : List Instruction) :
    Emission.Uncomments target (((e.withComments true comment).emit code).map render)
      (((e.withComments false comment).emit code).map render) := by
  have hkeep : e.Writes holds (fun piece => (!target.isComment (render piece)) = true) :=
    h.mono fun piece hpiece => by rw [hpiece.2]; rfl
  obtain ⟨hpieces, houtcome⟩ := filter_emit hkeep
    (fun s i => by rw [(hcomment s i).2]; rfl) code
  have hlines := ((h.mono fun piece hpiece => hpiece.1).annotated
    fun s i => (hcomment s i).1).forall_emit code
  have hon : e.withComments true comment = e.annotated comment := rfl
  refine ⟨houtcome, ?_⟩
  rw [hon, Emission.text_map, Emission.text_map,
    target.withoutComments_join (List.forall_mem_map.2 hlines), List.filter_map]
  exact congrArg (fun pieces => String.join (pieces.map render)) hpieces

/-! ## 3. Formats with indentation -/

/-- Formats with indentation keep comments apart from code. -/
theorem Dialect.Legible.uncomments {d : Dialect} {lead : Char} (h : d.Legible lead)
    (code : List Instruction) :
    Emission.Uncomments d.target (((d.emitter true).emit code).map Line.render)
      (((d.emitter false).emit code).map Line.render) :=
  (h.writes.mono fun _ hline => ⟨hline.isLine, h.isComment_code hline⟩).uncomments
    h.isComment_comment code

/-! ## 4. Code for QBE -/

namespace Qbe

theorem codeText_temp (t : Temp) : CodeText '#' t.name ∧ t.name.toList ≠ [] := by
  cases t <;>
    exact ⟨codeText_fixed (by rw [Temp.name, String.toList_ofList]; decide), by simp [Temp.name]⟩

theorem codeText_label (l : Label) : CodeText '#' l.name := by
  cases l <;> unfold Label.name <;>
    simp [String.append_assoc]

@[simp] theorem lineEnds_temp (t : Temp) : lineEnds t.name = 0 := (codeText_temp t).1.oneLine

@[simp] theorem lineEnds_arg (a : Arg) : lineEnds a.render = 0 := by
  cases a with
  | temp t => exact lineEnds_temp t
  | const n => exact (Llvm.tame_int n).lineEnds

/-- No instruction starts like a comment, and none has a line end. -/
theorem codeText_instr (w : Width) (code : Instr) : CodeText '#' (code.render w) := by
  have hop (op : BinaryOp) : lineEnds op.name = 0 := by cases op <;> decide
  have htemp (t : Temp) (text : String) : CodeText '#' (t.name ++ text) ↔ lineEnds text = 0 :=
    (codeText_temp t).1.append_iff (codeText_temp t).2
  have hload : lineEnds (loadName w) = 0 := by cases w <;> decide
  have hextend : lineEnds (extendName w) = 0 := by cases w <;> decide
  cases code <;> unfold Instr.render
  case store src addr =>
    cases w <;>
      simp [storeName, String.append_assoc]
  all_goals
    simp [String.append_assoc, htemp, hop, hload,
      hextend, (codeText_label _).oneLine]

/-- The line is no comment. -/
def Line.isCode : Line → Bool
  | .comment _ => false
  | _ => true

/-- The line as one of a format with indentation. -/
def Line.indented (w : Width) : Line → TapeCompiler.Line
  | .data bytes => .atMargin s!"data $MEM = \x7b z {bytes} \x7d"
  | .blank => .atMargin ""
  | .functionOpen => .atMargin "export function w $main() \x7b"
  | .functionClose => .atMargin "\x7d"
  | .label name => .atMargin name.name
  | .instr code => ⟨⟨1⟩, code.render w, .code⟩
  | .comment text => ⟨⟨0⟩, "# " ++ text, .comment⟩

/-- A line of QBE code reads as a line with indentation, so what is known of
these holds here. -/
theorem render_indented (w : Width) (line : Line) :
    (line.indented w).render = line.render w := by
  rw [← String.toList_inj, TapeCompiler.Line.toList_render]
  cases line <;> unfold Line.render <;>
    simp [toString_text, Line.indented, TapeCompiler.Line.atMargin]

theorem isCode_indented (w : Width) {line : Line} (h : line.isCode = true) :
    (line.indented w).IsCode '#' := by
  cases line with
  | comment text => cases h
  | label name => exact ⟨rfl, codeText_label name⟩
  | instr code => exact ⟨rfl, codeText_instr w code⟩
  | blank | functionOpen | functionClose =>
    refine ⟨rfl, codeText_fixed ?_⟩
    rw [Line.indented, TapeCompiler.Line.atMargin, String.toList_ofList]
    decide
  | data bytes =>
    refine ⟨rfl, ?_⟩
    simp [Line.indented,
      TapeCompiler.Line.atMargin, String.append_assoc]

/-- Code is one line each, and none is taken for a comment. -/
theorem isLine_render (w : Width) {line : Line} (h : line.isCode = true) :
    IsLine (line.render w) ∧ Target.isComment .qbe (line.render w) = false := by
  have hcode := isCode_indented w h
  rw [← render_indented]
  exact ⟨hcode.isLine, hcode.not_comment (by decide) rfl⟩

/-- A comment is one line, and is taken for one. -/
theorem isLine_comment (w : Width) (i : Instruction) :
    IsLine ((Line.comment i.describe).render w) ∧
      Target.isComment .qbe ((Line.comment i.describe).render w) = true := by
  have hmark : ("# ").toList = ['#', ' '] := by decide
  rw [← render_indented]
  refine ⟨TapeCompiler.Line.isLine_render ?_, ?_⟩
  · simpa [Line.indented] using (Llvm.tame_describe i).2
  · have hlead : ("# ").toList.head? = some '#' := by rw [hmark]; rfl
    rw [Target.isComment, ← hmark]
    exact TapeCompiler.Line.comment_render rfl hlead (by decide)

theorem keeps (options : EmitOptions) :
    (plainEmitter options).Keeps (fun _ => True) (fun line => line.isCode = true) := by
  have hput (value addr : Temp) : (putCell options.width value addr).all Line.isCode = true := by
    unfold putCell
    split <;> rfl
  intro s i _
  refine ⟨List.all_eq_true.1 ?_, fun _ _ => trivial⟩
  simp only [plainEmitter, step]
  cases i.opcode <;> dsimp only [Written.ok, Written.fail, putReads]
  all_goals
    (repeat' split) <;>
    simp only [List.all_nil, List.all_cons, List.all_append, List.all_flatMap, List.all_replicate,
      hput, closeLoop, readLines, Line.isCode, Bool.and_self, ite_self]
  all_goals exact List.all_eq_true.2 fun _ _ => rfl

/-- All that the format writes without comments is code. -/
theorem writes (options : EmitOptions) :
    (plainEmitter options).Writes (fun _ => True) (fun line => line.isCode = true) := by
  refine ⟨⟨List.all_eq_true.1 ?_, fun _ _ => trivial⟩, keeps options,
    fun s _ => List.all_eq_true.1 ?_⟩
  · simp only [plainEmitter, header]
    cases Size.mul options.memorySize options.width.bytes <;> rfl
  · simp only [plainEmitter, finish, Written.ok, List.all_append, List.all_flatMap]
    rw [Bool.and_eq_true]
    exact ⟨List.all_eq_true.2 fun _ _ => rfl, rfl⟩

/-- **Comments leave QBE code as it is.** -/
theorem uncomments (options : EmitOptions) (code : List Instruction) :
    Emission.Uncomments .qbe
      ((emission { options with comments := true } code).map (Line.render options.width))
      ((emission { options with comments := false } code).map (Line.render options.width)) :=
  ((writes options).mono fun _ => isLine_render options.width).uncomments
    (fun _ i => isLine_comment options.width i) code

end Qbe

/-! ## 5. Code for LLVM -/

namespace Llvm

/-- The line is no comment, and does not look like one. -/
def Line.isCode : Line → Bool
  | .comment _ => false
  | .fixed text => text.toList.head? != some ' '
  | _ => true

/-- A line of code whose free texts have no line end. -/
@[mk_iff]
structure Line.Plain (line : Line) : Prop where
  code : line.isCode = true
  texts : ∀ text ∈ line.texts, lineEnds text = 0

/-- A comment is indented, so a line at the margin is none. -/
theorem isComment_of_head {text : String} (h : text.toList.head? ≠ some ' ') :
    Target.isComment .llvm text = false := by
  rw [Target.isComment, ← Bool.not_eq_true, List.isPrefixOf_iff_prefix]
  rintro ⟨rest, hrest⟩
  exact h (by rw [← hrest]; rfl)

/-- No operation starts with the mark of a comment. -/
theorem head_op (w : Width) (op : Op) : ∃ c ∈ (op.render w).toList.head?, c ≠ ';' := by
  cases op <;> unfold Op.render
  all_goals simp [toString_text, Temp.render]

/-- Code is one line each, and none is taken for a comment. Indented lines of
code go on with an operation. -/
theorem isLine_render (w : Width) {line : Line} (h : line.Plain) :
    IsLine (line.render w) ∧ Target.isComment .llvm (line.render w) = false := by
  refine ⟨⟨lineEnds_line w h.texts, getLast?_line w line⟩, ?_⟩
  cases line with
  | comment text => cases h.code
  | op code location =>
    obtain ⟨c, hc, hmark⟩ := head_op w code
    obtain ⟨rest, hrest⟩ := List.head?_eq_some_iff.1 (Option.mem_def.1 hc)
    rw [Target.isComment]
    unfold Line.render
    simp [toString_text, hrest, List.isPrefixOf, hmark.symm]
  | fixed text =>
    refine isComment_of_head ?_
    have hhead : text.toList.head? ≠ some ' ' := bne_iff_ne.1 h.code
    unfold Line.render
    cases hchars : text.toList <;> simp_all [toString_text]
  | label l =>
    refine isComment_of_head ?_
    unfold Line.render
    cases l <;> simp [toString_text, Label.name]
  | allocate =>
    rw [Target.isComment]
    unfold Line.render
    rw [String.toList_ofList]
    rfl
  | _ =>
    refine isComment_of_head ?_
    unfold Line.render
    simp [toString_text, NodeId.render]

theorem isLine_comment (w : Width) (i : Instruction) :
    IsLine ((Line.comment i.describe).render w) ∧
      Target.isComment .llvm ((Line.comment i.describe).render w) = true := by
  refine ⟨⟨lineEnds_line w ?_, getLast?_line w _⟩, ?_⟩
  · exact List.forall_mem_singleton.2 (tame_describe i).lineEnds
  · rw [Target.isComment]
    unfold Line.render
    simp [ToString.toString]

/-- The nodes of steps bring in no texts. -/
def State.Textless (s : State) : Prop := ∀ node ∈ s.nodes.toList, node.texts = []

/-- A step that fails has written nothing. -/
theorem pieces_of_error {w : Width} {s : State} {i : Instruction} {fault : EmitFault}
    (h : (step w s i).result = .error fault) : (step w s i).pieces = [] := by
  unfold step at h ⊢
  cases hop : i.opcode <;> simp only [hop] at h ⊢
  case right | left =>
    cases hdisplacement : i.displacement with
    | error cause => rfl
    | ok distance => 
      rw [hdisplacement] at h
      cases h
  case div =>
    split
    · rename_i hoffset
      rw [if_pos hoffset] at h
      cases h
    · rfl
  case scanRight | scanLeft | printRun => rfl
  all_goals cases h

theorem keeps (options : EmitOptions) : (plainEmitter options).Keeps State.Textless Line.Plain := by
  intro s i hs
  change (∀ line ∈ (step options.width s i).pieces, line.Plain) ∧
    ∀ s', (step options.width s i).result = .ok s' → s'.Textless
  cases hresult : (step options.width s i).result with
  | error fault =>
    rw [pieces_of_error hresult]
    exact ⟨List.forall_mem_nil _, fun s' h => by cases h⟩
  | ok s' =>
    have hstep := step_of_ok hresult
    constructor
    · intro line hline
      rcases hstep.mem_lines hline with rfl | ⟨l, rfl⟩ | ⟨-, op, rfl, -⟩ <;>
        exact ⟨rfl, List.forall_mem_nil _⟩
    · rintro _ ⟨⟩
      rw [State.Textless, hstep.leaves.nodes]
      exact List.forall_mem_append.2 ⟨hs, texts_added s i⟩

theorem plain_nodeLines {nodes : List Node}
    (h : ∀ node ∈ nodes, ∀ text ∈ node.texts, lineEnds text = 0) :
    ∀ line ∈ nodeLines nodes, line.Plain := by
  rw [nodeLines_eq]
  refine List.forall_mem_map.2 fun numbered hnumbered => ⟨rfl, ?_⟩
  exact h _ (List.fst_mem_of_mem_zipIdx hnumbered)

theorem plain_fixed {text : String} (h : '\n' ∉ text.toList ∧ text.toList.head? ≠ some ' ') :
    (Line.fixed text).Plain :=
  ⟨bne_iff_ne.2 h.2, List.forall_mem_singleton.2 (lineEnds_of_not_mem h.1)⟩

/-- The fixed lines at the end stand at the margin. -/
theorem plain_footer (s : State) : ∀ line ∈ footer s, line.Plain := by
  have hnamed {name : String} {elements : List NodeId} (h : '\n' ∉ name.toList) :
      (Line.named name elements).Plain :=
    ⟨rfl, List.forall_mem_singleton.2 (lineEnds_of_not_mem h)⟩
  have hret : (Line.op .ret s.location).Plain ∧ Line.functionClose.Plain ∧ Line.blank.Plain := by
    simp [Line.plain_iff, Line.isCode, Line.texts]
  simp [footer, hret, plain_fixed, hnamed]

/-- The name of the source comes in at the start and among the last nodes,
which is why it must be on one line. -/
theorem writes {options : EmitOptions} (hname : '\n' ∉ options.sourceName.toList) :
    (plainEmitter options).Writes State.Textless Line.Plain := by
  constructor
  case step => exact keeps options
  case start =>
    refine ⟨?_, ?_⟩
    · simp [plainEmitter, header, Written.ok, Line.plain_iff, Line.isCode, Line.texts,
        lineEnds_of_not_mem hname]
    · rintro _ ⟨⟩
      simp [State.Textless, State.locate, Node.texts]
  case finish =>
    intro s hs
    have hclosing := (keeps options).forall_piecesOf hs
      (List.replicate s.loops.length .unplacedEnd)
    have hbehind := (keeps options).stateAfter hs (List.replicate s.loops.length .unplacedEnd)
    simp only [plainEmitter, finish, closeAll_eq options]
    cases Size.mul options.memorySize options.width.bits with
    | error cause => exact List.forall_mem_append.2 ⟨hclosing, plain_footer _⟩
    | ok tapeBits =>
      refine List.forall_mem_append.2 ⟨List.forall_mem_append.2 ⟨hclosing, plain_footer _⟩,
        plain_nodeLines (List.forall_mem_append.2 ⟨?_, ?_⟩)⟩
      · exact fun node hnode text htext => lineEnds_of_not_mem
          (not_mem_texts_fixed (.inr rfl) hname tapeBits node hnode text htext)
      · intro node hnode
        rw [hbehind node hnode]
        exact List.forall_mem_nil _

/-- **Comments leave LLVM code as it is.** -/
theorem uncomments {options : EmitOptions} (hname : '\n' ∉ options.sourceName.toList)
    (code : List Instruction) :
    Emission.Uncomments .llvm
      ((emission { options with comments := true } code).map (Line.render options.width))
      ((emission { options with comments := false } code).map (Line.render options.width)) :=
  ((writes hname).mono fun _ => isLine_render options.width).uncomments
    (fun _ i => isLine_comment options.width i) code

end Llvm

/-! ## 6. Five formats -/

/-- **Comments do not change the code.** -/
theorem Stream.emit_without_comments (target : Target)
    (htarget : target ∈ [.qbe, .c, .javaScript, .llvm, .listing]) (options : EmitOptions)
    (hname : '\n' ∉ options.sourceName.toList) (code : List Instruction) {sink : Sink}
    (hsink : sink.limit = none) :
    ∃ (text : String) (outcome : Except EmitError (List Warning)),
      Stream.emit target { options with comments := true } code sink =
        ⟨{ sink with written := sink.written ++ text.toUTF8.data }, outcome⟩ ∧
      Stream.emit target { options with comments := false } code sink =
        ⟨{ sink with
            written := sink.written ++ (target.withoutComments text).toUTF8.data }, outcome⟩ := by
  have huncomments : Emission.Uncomments target
      (Stream.emission target { options with comments := true } code)
      (Stream.emission target { options with comments := false } code) := by
    cases target with
    | qbe => exact Qbe.uncomments options code
    | c => exact (CCode.legible options).uncomments code
    | javaScript => exact (JavaScript.legible options _).uncomments code
    | llvm => exact Llvm.uncomments hname code
    | symbols => simp at htarget
    | listing => exact Listing.legible.uncomments code
  refine ⟨_, _, Emission.deliver_of_unlimited _ hsink, ?_⟩
  rw [Stream.emit, Emission.deliver_of_unlimited _ hsink, huncomments.text, huncomments.outcome]

/-- A loop that is left open, before an instruction without counterpart; the
name of the source has the marks of comments in it. -/
theorem Stream.emit_without_comments_open_loop :
    let options : EmitOptions := { sourceName := "  ; # // x.bf" }
    let code : List Instruction := [⟨.loopStart, 1, 0, some ⟨1, 1⟩⟩, ⟨.write, 2, 0, some ⟨1, 2⟩⟩,
      ⟨.scanRight, 1, 0, none⟩]
    Target.llvm ∈ [Target.qbe, .c, .javaScript, .llvm, .listing] ∧
      '\n' ∉ options.sourceName.toList ∧ ({} : Sink).limit = none ∧
      ∃ (text : String) (outcome : Except EmitError (List Warning)),
        Stream.emit .llvm { options with comments := true } code {} =
          ⟨{ written := #[] ++ text.toUTF8.data }, outcome⟩ ∧
        Stream.emit .llvm { options with comments := false } code {} =
          ⟨{ written := #[] ++ (Target.llvm.withoutComments text).toUTF8.data }, outcome⟩ := by
  intro options code
  have htarget : Target.llvm ∈ [Target.qbe, .c, .javaScript, .llvm, .listing] := by decide
  have hname : '\n' ∉ options.sourceName.toList := by decide
  exact ⟨htarget, hname, rfl,
    Stream.emit_without_comments .llvm htarget options hname code rfl⟩

end TapeCompiler
