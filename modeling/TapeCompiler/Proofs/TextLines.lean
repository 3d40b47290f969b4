/-
TapeCompiler.Proofs.TextLines — code that is written line by line.

Five formats write their code so that each piece is one line, with its end
(`IsLine`). Cutting the text at its line ends then gives the pieces back
(`textLines_of_isLine`), whatever the pieces say, and so a question about
the text is one about its pieces.

Tabs at the start of a line are its depth (`leadingTabs`), and the rest is
what it says (`unindented`). A line is a comment by what it says first
(`Target.isComment`).

The formats with indentation share `Dialect`. Its wording is legible
(`Dialect.Legible`) if no text of code has a line end, starts with a tab or
starts like a comment; then depth, text and kind of each line can be read
off the text. `CCode.legible`, `JavaScript.legible` and `Listing.legible`
check the wordings, one opcode at a time.
-/
import TapeCompiler.Emit
import TapeCompiler.Proofs.LlvmDebugInfo

namespace TapeCompiler

open Llvm (lineEnds textLines)

/-! ## 1. Numerals -/

theorem not_mem_nat {c : Char} (h : c.isDigit = false) (n : Nat) : c ∉ n.repr.toList := by
  rw [Nat.toList_repr]
  intro hmem
  rw [Nat.isDigit_of_mem_toDigits (by decide) (by decide) hmem] at h
  cases h

/-- A numeral is made of digits, and a sign at most. -/
theorem not_mem_int {c : Char} (h : c ≠ '-' ∧ c.isDigit = false) (n : Int) :
    c ∉ n.repr.toList := by
  cases n with
  | ofNat n => exact not_mem_nat h.2 n
  | negSucc n =>
    have htext : (Int.negSucc n).repr = "-" ++ (n + 1).repr := rfl
    rw [htext, String.toList_append, List.mem_append, not_or]
    exact ⟨by simpa using h.1, not_mem_nat h.2 _⟩

/-! ## 2. Lines -/

/-- The piece is one line with its end. -/
def IsLine (piece : String) : Prop := lineEnds piece = 1 ∧ piece.toList.getLast? = some '\n'

/-- The line without its end. -/
def withoutEnd (piece : String) : String := String.ofList piece.toList.dropLast

/-- How many tabs a line starts with. -/
def leadingTabs (line : String) : Nat := (line.toList.takeWhile (· == '\t')).length

/-- What the line says behind its tabs. -/
def unindented (line : String) : List Char := line.toList.dropWhile (· == '\t')

section Lines

variable {line : String}

/-- **A text made of lines** is cut into them. -/
theorem textLines_of_isLine {pieces : List String} (h : ∀ piece ∈ pieces, IsLine piece) :
    textLines (String.join pieces) = pieces.map withoutEnd ++ [""] :=
  Llvm.textLines_join h

theorem toList_of_isLine (h : IsLine line) : line.toList = (withoutEnd line).toList ++ ['\n'] := by
  rw [withoutEnd, String.toList_ofList]
  exact (List.dropLast_append_getLast? _ h.2).symm

theorem dropWhile_tabs_concat (chars : List Char) :
    (chars ++ ['\n']).dropWhile (· == '\t') = chars.dropWhile (· == '\t') ++ ['\n'] := by
  induction chars with
  | nil => rfl
  | cons c rest ih =>
    rw [List.cons_append, List.dropWhile_cons, List.dropWhile_cons, ih]
    split <;> rfl

theorem unindented_withoutEnd (h : IsLine line) :
    unindented line = unindented (withoutEnd line) ++ ['\n'] := by
  rw [unindented, toList_of_isLine h, dropWhile_tabs_concat]
  rfl

end Lines

/-! ## 3. Comments -/

/-- The line says something that starts like a comment of the format. Tabs may
stand before the mark of a comment, except in LLVM code. -/
def Target.isComment (target : Target) (line : String) : Bool :=
  match target with
  | .qbe | .listing => ['#', ' '].isPrefixOf (unindented line)
  | .c | .javaScript => ['/', '/', ' '].isPrefixOf (unindented line)
  | .llvm => [' ', ' ', ';', ' '].isPrefixOf line.toList
  | .symbols => false

theorem isPrefixOf_concat {mark : List Char} (h : '\n' ∉ mark) (chars : List Char) :
    mark.isPrefixOf (chars ++ ['\n']) = mark.isPrefixOf chars := by
  rw [Bool.eq_iff_iff, List.isPrefixOf_iff_prefix, List.isPrefixOf_iff_prefix,
    List.prefix_concat_iff]
  refine or_iff_right fun heq => h ?_
  rw [heq]
  exact List.mem_append_right _ (List.mem_singleton_self _)

/-- The end of a line does not make it a comment. -/
theorem Target.isComment_withoutEnd (target : Target) {line : String} (h : IsLine line) :
    target.isComment (withoutEnd line) = target.isComment line := by
  cases target <;> simp only [isComment, unindented_withoutEnd h]
  case llvm => rw [toList_of_isLine h, isPrefixOf_concat (by decide)]
  all_goals rw [isPrefixOf_concat (by decide)]

/-! ## 4. Lines with indentation -/

namespace Line

variable {line : Line}

theorem toList_render (line : Line) :
    line.render.toList =
      List.replicate line.indent.level '\t' ++ (line.text.toList ++ ['\n']) := by
  simp [render, Indent.toText]

theorem isLine_render (h : '\n' ∉ line.text.toList) : IsLine line.render := by
  refine ⟨?_, by simp [toList_render]⟩
  simp [lineEnds, toList_render, List.count_replicate, List.count_eq_zero.2 h]

theorem takeWhile_dropWhile_render (h : line.text.toList.head? ≠ some '\t') :
    line.render.toList.takeWhile (· == '\t') = List.replicate line.indent.level '\t' ∧
      line.render.toList.dropWhile (· == '\t') = line.text.toList ++ ['\n'] := by
  have htabs : ∀ c ∈ List.replicate line.indent.level '\t', (c == '\t') = true := by
    intro c hc
    rw [List.eq_of_mem_replicate hc]
    rfl
  have htext : (line.text.toList ++ ['\n']).takeWhile (· == '\t') = [] ∧
      (line.text.toList ++ ['\n']).dropWhile (· == '\t') = line.text.toList ++ ['\n'] := by
    cases hchars : line.text.toList with
    | nil => decide
    | cons c rest =>
      have hc : (c == '\t') = false := beq_false_of_ne fun heq => h (by simp [hchars, heq])
      simp [hc]
  rw [toList_render, List.takeWhile_append_of_pos htabs, List.dropWhile_append_of_pos htabs,
    htext.1, htext.2, List.append_nil]
  exact ⟨rfl, rfl⟩

theorem leadingTabs_render (h : line.text.toList.head? ≠ some '\t') :
    leadingTabs line.render = line.indent.level := by
  rw [leadingTabs, (takeWhile_dropWhile_render h).1, List.length_replicate]

theorem unindented_render (h : line.text.toList.head? ≠ some '\t') :
    unindented line.render = line.text.toList ++ ['\n'] :=
  (takeWhile_dropWhile_render h).2

end Line

/-! ## 5. Formats with indentation -/

/-- A text of code, in a format whose comments start with the character `lead`. -/
structure CodeText (lead : Char) (text : String) : Prop where
  oneLine : lineEnds text = 0
  starts : text.toList.head? ≠ some '\t' ∧ text.toList.head? ≠ some lead

/-- A line of code, in a format whose comments start with the character `lead`. -/
@[mk_iff]
structure Line.IsCode (lead : Char) (line : Line) : Prop where
  kind : line.kind = .code
  text : CodeText lead line.text

theorem Line.IsCode.isLine {lead : Char} {line : Line} (h : line.IsCode lead) :
    IsLine line.render :=
  Line.isLine_render (List.count_eq_zero.1 h.text.oneLine)

theorem Line.IsCode.unindented_render {lead : Char} {line : Line} (h : line.IsCode lead) :
    unindented line.render = line.text.toList ++ ['\n'] :=
  Line.unindented_render h.text.starts.1

/-- Without tabs and line end, the line is its text. -/
theorem Line.IsCode.unindented_withoutEnd {lead : Char} {line : Line} (h : line.IsCode lead) :
    unindented (withoutEnd line.render) = line.text.toList := by
  have hrender := h.unindented_render
  rw [TapeCompiler.unindented_withoutEnd h.isLine] at hrender
  exact List.append_cancel_right hrender

/-- A line of code does not start like a comment. -/
theorem Line.IsCode.not_comment {lead : Char} {line : Line} (h : line.IsCode lead)
    {mark : List Char} (hmark : '\n' ∉ mark) (hlead : mark.head? = some lead) :
    mark.isPrefixOf (unindented line.render) = false := by
  rw [h.unindented_render, isPrefixOf_concat hmark, ← Bool.not_eq_true,
    List.isPrefixOf_iff_prefix]
  rintro ⟨rest, hrest⟩
  refine h.text.starts.2 ?_
  rw [← hrest, List.head?_append, hlead]
  rfl

/-- A line that says a mark first starts like a comment. -/
theorem Line.comment_render {line : Line} {lead : Char} {mark text : String}
    (htext : line.text = mark ++ text) (hlead : mark.toList.head? = some lead)
    (htab : lead ≠ '\t') : mark.toList.isPrefixOf (unindented line.render) = true := by
  have hhead : line.text.toList.head? ≠ some '\t' := by
    simpa [htext, List.head?_append, hlead] using htab
  rw [Line.unindented_render hhead, htext, List.isPrefixOf_iff_prefix]
  simp

namespace Dialect

/-- Lines of code and comments can be told apart, and their depth can be
read off. -/
structure Legible (d : Dialect) (lead : Char) : Prop where
  /-- The mark is the one that comments of the format are known by. -/
  isComment_eq : ∀ line,
    d.target.isComment line = d.commentMark.toList.isPrefixOf (unindented line)
  mark_oneLine : '\n' ∉ d.commentMark.toList
  mark_head : d.commentMark.toList.head? = some lead ∧ lead ≠ '\t'
  header : ∀ line ∈ d.header, line.IsCode lead
  statement : ∀ i lines, d.statement i = some lines → ∀ entry ∈ lines, CodeText lead entry.2
  closer : CodeText lead d.closer
  footer : ∀ line ∈ d.footer, line.IsCode lead

namespace Legible

variable {d : Dialect} {lead : Char} (h : d.Legible lead)

include h

theorem isComment_code {line : Line} (hline : line.IsCode lead) :
    d.target.isComment line.render = false := by
  rw [h.isComment_eq]
  exact hline.not_comment h.mark_oneLine h.mark_head.1

/-- A comment is one line, and starts as comments do. -/
theorem isComment_comment (indent : Indent) (i : Instruction) :
    IsLine (d.comment indent i).render ∧
      d.target.isComment (d.comment indent i).render = true := by
  rw [h.isComment_eq]
  exact ⟨Line.isLine_render (by simpa [comment] using ⟨h.mark_oneLine, (Llvm.tame_describe i).2⟩),
    Line.comment_render rfl h.mark_head.1 h.mark_head.2⟩

/-- **All that is written is code**, comments apart. -/
theorem writes : d.plainEmitter.Writes (fun _ => True) (Line.IsCode lead) := by
  refine ⟨⟨h.header, fun _ _ => trivial⟩, fun indent i _ => ⟨?_, fun _ _ => trivial⟩,
    fun indent _ => List.forall_mem_append.2 ⟨?_, h.footer⟩⟩
  · simp only [plainEmitter]
    cases hlines : d.statement i with
    | none => exact List.forall_mem_nil _
    | some lines =>
      intro line hline
      obtain ⟨entry, hentry, rfl⟩ := List.mem_map.1 hline
      exact ⟨rfl, h.statement i lines hlines entry hentry⟩
  · intro line hline
    obtain ⟨depth, -, rfl⟩ := List.mem_map.1 hline
    exact ⟨rfl, h.closer⟩

end Legible

end Dialect

/-! ## 6. Wordings -/

section Wordings

variable {lead : Char} {s t : String}

/-- For a text that does not vary, the conditions are decided. -/
@[simp] theorem codeText_fixed
    (h : '\n' ∉ s.toList ∧ s.toList.head? ≠ some '\t' ∧ s.toList.head? ≠ some lead) :
    CodeText lead s :=
  ⟨Llvm.lineEnds_of_not_mem h.1, h.2⟩

/-- The start of a text decides what it starts with. -/
theorem CodeText.append_iff (h : CodeText lead s) (hs : s.toList ≠ []) :
    CodeText lead (s ++ t) ↔ lineEnds t = 0 := by
  obtain ⟨c, rest, hchars⟩ := List.exists_cons_of_ne_nil hs
  have hstarts := h.starts
  rw [hchars] at hstarts
  constructor
  · intro hcode
    simpa [Llvm.lineEnds_append, h.oneLine] using hcode.oneLine
  · intro ht
    refine ⟨by rw [Llvm.lineEnds_append, h.oneLine, ht], ?_⟩
    rw [String.toList_append, hchars]
    exact hstarts

@[simp] theorem codeText_append_iff
    (h : s.toList ≠ [] ∧ '\n' ∉ s.toList ∧ s.toList.head? ≠ some '\t' ∧
      s.toList.head? ≠ some lead) :
    CodeText lead (s ++ t) ↔ lineEnds t = 0 :=
  (codeText_fixed h.2).append_iff h.1

theorem CCode.codeText_statement (w : Width) (i : Instruction) :
    ∀ entry ∈ statement w i, CodeText '/' entry.2 := by
  unfold statement repeated cell wordType
  cases i.opcode <;> dsimp only
  all_goals
    (repeat' split) <;>
    simp [String.append_assoc]

theorem CCode.legible (options : EmitOptions) : (CCode.dialect options).Legible '/' := by
  constructor
  case isComment_eq => simp [dialect, Target.isComment]
  case statement =>
    rintro i lines hlines
    cases hlines
    exact codeText_statement options.width i
  case header =>
    simp only [dialect, header, wordType, Line.atMargin]
    cases options.width <;>
      simp [String.append_assoc, Line.isCode_iff]
  all_goals
    simp [dialect, Line.isCode_iff, Line.atMargin]

theorem JavaScript.codeText_statement {i : Instruction} {lines : List (Nat × String)}
    (h : statement? i = some lines) : ∀ entry ∈ lines, CodeText '/' entry.2 := by
  unfold statement? repeated cell at h
  cases hop : i.opcode <;> simp only [hop] at h
  all_goals
    (repeat' split at h) <;> cases h <;>
    simp [String.append_assoc]

theorem JavaScript.isCode_header (options : EmitOptions) (reads : Bool) :
    ∀ line ∈ header options reads, line.IsCode '/' := by
  simp only [header, inputPart, outputPart, arrayType, Line.atMargin]
  cases options.width <;> cases reads <;>
    simp [String.append_assoc, Line.isCode_iff]

theorem JavaScript.legible (options : EmitOptions) (reads : Bool) :
    (JavaScript.dialect options reads).Legible '/' := by
  constructor
  case isComment_eq => simp [dialect, Target.isComment]
  case statement => exact fun i lines h => codeText_statement h
  case header => exact isCode_header options reads
  case footer =>
    cases reads <;>
      simp [dialect, footer, Line.isCode_iff,
        Line.atMargin]
  all_goals simp [dialect]

theorem Listing.legible : Listing.dialect.Legible '#' := by
  constructor
  case isComment_eq => simp [dialect, Target.isComment]
  case statement =>
    rintro i lines hlines
    cases hlines
    unfold line
    cases i.opcode <;>
      simp [String.append_assoc, Opcode.mnemonic]
  all_goals simp [dialect]

end Wordings

/-! ## 7. Whole streams -/

namespace Dialect

variable {d : Dialect} {comments : Bool} {code : List Instruction}

theorem texts_closers (d : Dialect) (indent : Indent) :
    (d.closers indent).map Line.text = List.replicate (indent.level - base.level) d.closer := by
  rw [closers, List.map_map, List.eq_replicate_iff]
  refine ⟨by simp, fun text htext => ?_⟩
  obtain ⟨depth, -, rfl⟩ := List.mem_map.1 htext
  rfl

theorem result_step (comments : Bool) (indent : Indent) {i : Instruction}
    (h : d.statement i ≠ none) :
    ((d.emitter comments).step indent i).result = .ok (exitIndent indent i) := by
  obtain ⟨lines, hlines⟩ := Option.ne_none_iff_exists'.1 h
  rw [emitter, Emitter.result_withComments]
  exact result_plainEmitter indent hlines

/-- The depth behind a stream that is written. -/
theorem stateAfter_eq (comments : Bool) (indent : Indent) (h : ∀ i ∈ code, d.statement i ≠ none) :
    (d.emitter comments).stateAfter indent code = code.foldl exitIndent indent := by
  induction code generalizing indent with
  | nil => rfl
  | cons i rest ih =>
    rw [List.forall_mem_cons] at h
    rw [Emitter.stateAfter_cons, Emitter.next_of_ok (result_step comments indent h.1), ih _ h.2]
    rfl

/-- What is written of a stream, if the format has words for it. -/
theorem emit_eq (comments : Bool) (h : ∀ i ∈ code, d.statement i ≠ none) :
    ((d.emitter comments).emit code).pieces.toList =
        d.header ++ (d.emitter comments).piecesOf base code
          ++ (d.closers (code.foldl exitIndent base) ++ d.footer) ∧
      ((d.emitter comments).emit code).outcome = .ok (warnings (code.foldl exitIndent base)) := by
  have hstart : (d.emitter comments).start = .ok d.header base := Emitter.start_withComments ..
  have hfinish : (d.emitter comments).finish = d.plainEmitter.finish :=
    Emitter.finish_withComments ..
  have hpasses : (d.emitter comments).Passes base code :=
    Emitter.passes_of_forall (fun i hi indent => ⟨_, result_step comments indent (h i hi)⟩) base
  have hemit := Emitter.emit_of_passes (by rw [hstart]; rfl) hpasses
  rw [hstart, hfinish, stateAfter_eq comments base h] at hemit
  exact hemit

/-- A stream that is accepted can be expressed. -/
theorem statement_ne_none_of_ok {result : List Warning}
    (h : ((d.emitter comments).emit code).outcome = .ok result) :
    ∀ i ∈ code, d.statement i ≠ none := by
  have hstart : (d.emitter comments).start.result = .ok base := by
    rw [emitter, Emitter.start_withComments]
    rfl
  have hpasses := Emitter.passes_of_emit hstart h
  generalize base = indent at hpasses
  clear hstart h
  induction code generalizing indent with
  | nil => exact List.forall_mem_nil _
  | cons i rest ih =>
    obtain ⟨hi, hrest⟩ := hpasses
    refine List.forall_mem_cons.2 ⟨fun hnone => ?_, ih _ hrest⟩
    rw [emitter, Emitter.result_withComments] at hi
    simp only [plainEmitter, hnone] at hi
    cases hi

end Dialect

end TapeCompiler
