/-
TapeCompiler.Proofs.BraceBlocks — braces show the blocks of a stream.

C and JavaScript enclose a block in braces. The braces of the text follow the
blocks of the stream: whatever depth one starts from, walking over the text of
some instructions leads to the same depth as walking over the instructions
(`Dialect.braceDepth_textOf`). Loops within the code of one instruction, and
the braces of header and footer, come out even.

Both walks are `depthAfter`, over characters and over instructions. It has no
value if more is closed than was opened, so that it has one says that no
beginning closes too much (`depthAfter_eq_some_iff`). What a closing item
closes is found by walking back to where its level was opened
(`exists_opening`): what stands in between is balanced.

`Dialect.MirrorsBlocks` puts together what a text shows: the indentation of
each instruction, the brace that it opens or closes, and the braces that are
added at the end. `Stream.text_mirrors_blocks` is the main result.
-/
import TapeCompiler.Proofs.TextLines
import TapeCompiler.Proofs.BlockWarnings

namespace TapeCompiler

/-! ## 1. Depths -/

section Depths

variable {α : Type} {opens closes : α → Bool} {depth depth' : Nat} {items : List α}

/-- The depth behind one item. -/
def depthStep (opens closes : α → Bool) (depth : Nat) (item : α) : Option Nat :=
  if opens item then some (depth + 1)
  else if closes item then (if depth = 0 then none else some (depth - 1))
  else some depth

/-- The depth behind some items, unless more was closed than was open. -/
def depthAfter (opens closes : α → Bool) (depth : Nat) (items : List α) : Option Nat :=
  items.foldlM (depthStep opens closes) depth

@[simp] theorem depthAfter_nil : depthAfter opens closes depth [] = some depth := rfl

theorem depthAfter_cons (item : α) (items : List α) :
    depthAfter opens closes depth (item :: items) =
      (depthStep opens closes depth item).bind (depthAfter opens closes · items) :=
  List.foldlM_cons ..

theorem depthAfter_append (items items' : List α) :
    depthAfter opens closes depth (items ++ items') =
      (depthAfter opens closes depth items).bind (depthAfter opens closes · items') :=
  List.foldlM_append ..

theorem depthStep_add {item : α} (h : depthStep opens closes depth item = some depth')
    (more : Nat) : depthStep opens closes (depth + more) item = some (depth' + more) := by
  unfold depthStep at *
  split_ifs at * <;> simp_all <;> omega

/-- What is balanced at some depth is so further in. -/
theorem depthAfter_add (h : depthAfter opens closes depth items = some depth') (more : Nat) :
    depthAfter opens closes (depth + more) items = some (depth' + more) := by
  induction items generalizing depth with
  | nil => simpa using h
  | cons item rest ih =>
    rw [depthAfter_cons, Option.bind_eq_some_iff] at h
    obtain ⟨next, hnext, hrest⟩ := h
    rw [depthAfter_cons, depthStep_add hnext more]
    exact ih hrest

/-- Items that neither open nor close anything leave the depth as it is. -/
theorem depthAfter_neutral (h : ∀ item ∈ items, opens item = false ∧ closes item = false) :
    depthAfter opens closes depth items = some depth := by
  induction items with
  | nil => rfl
  | cons item rest ih =>
    rw [List.forall_mem_cons] at h
    rw [depthAfter_cons, depthStep, h.1.1, h.1.2]
    exact ih h.2

/-- **A depth is reached** exactly if no beginning closes too much. -/
theorem depthAfter_eq_some_iff (hkinds : ∀ item, opens item = true → closes item = false) :
    depthAfter opens closes depth items = some depth' ↔
      (∀ k, (items.take k).countP closes ≤ depth + (items.take k).countP opens) ∧
        depth' + items.countP closes = depth + items.countP opens := by
  induction items generalizing depth with
  | nil => simp [eq_comm]
  | cons item rest ih =>
    have hcons : (∀ k, ((item :: rest).take k).countP closes ≤
        depth + ((item :: rest).take k).countP opens) ↔
        ∀ k, (rest.take k).countP closes + (if closes item then 1 else 0) ≤
          depth + ((rest.take k).countP opens + if opens item then 1 else 0) := by
      constructor
      · intro h k
        simpa [List.countP_cons] using h (k + 1)
      · rintro h (_ | k)
        · simp
        · simpa [List.countP_cons] using h k
    rw [hcons, depthAfter_cons, depthStep]
    cases hopens : opens item with
    | true => simp [hkinds item hopens, ih, Nat.add_assoc, Nat.add_comm 1, hopens]
    | false =>
      cases hcloses : closes item with
      | false => simp [hopens, hcloses, ih]
      | true =>
        cases depth with
        | zero =>
          simp only [Bool.false_eq_true, if_false, if_true, Option.bind_none, reduceCtorEq,
            false_iff, not_and]
          intro h
          simpa using h 0
        | succ depth =>
          simp only [Bool.false_eq_true, if_false, if_true, Nat.add_one_ne_zero,
            Nat.add_sub_cancel, Option.bind_some, ih, List.countP_cons, hopens, hcloses]
          refine and_congr (forall_congr' fun k => ?_) ?_ <;> omega

/-- Either a depth is never left below, or it was opened by an item behind
which all is balanced. -/
theorem depthAfter_cases {level : Nat}
    (h : depthAfter opens closes depth items = some (level + 1)) :
    (∃ above, depth = level + 1 + above ∧ depthAfter opens closes above items = some 0) ∨
      ∃ before item inner, items = before ++ item :: inner ∧ opens item = true ∧
        depthAfter opens closes 0 inner = some 0 := by
  induction items generalizing depth with
  | nil => exact .inl ⟨0, by simpa using h, rfl⟩
  | cons item rest ih =>
    rw [depthAfter_cons, Option.bind_eq_some_iff] at h
    obtain ⟨next, hnext, hrest⟩ := h
    rcases ih hrest with ⟨above, rfl, habove⟩ | ⟨before, first, inner, rfl, hopen, hinner⟩
    · unfold depthStep at hnext
      split_ifs at hnext with hopens hcloses hzero <;> have hnext := Option.some.inj hnext
      · cases above with
        | zero => exact .inr ⟨[], item, rest, rfl, hopens, habove⟩
        | succ above =>
          refine .inl ⟨above, by omega, ?_⟩
          rw [depthAfter_cons, depthStep, if_pos hopens]
          exact habove
      · refine .inl ⟨above + 1, by omega, ?_⟩
        rw [depthAfter_cons, depthStep, if_neg hopens, if_pos hcloses]
        exact habove
      · refine .inl ⟨above, hnext, ?_⟩
        rw [depthAfter_cons, depthStep, if_neg hopens, if_neg hcloses]
        exact habove
    · exact .inr ⟨item :: before, first, inner, rfl, hopen, hinner⟩

/-- **What was open** was opened by an item behind which all is balanced. -/
theorem exists_opening {level : Nat}
    (h : depthAfter opens closes depth items = some (level + 1)) (hlevel : depth ≤ level) :
    ∃ before item inner, items = before ++ item :: inner ∧ opens item = true ∧
      depthAfter opens closes 0 inner = some 0 := by
  rcases depthAfter_cases h with ⟨above, rfl, -⟩ | hopening
  · omega
  · exact hopening

end Depths

/-! ## 2. Braces of a text -/

/-- The depth of braces behind a text, unless it closes more than is open. -/
def braceDepth (depth : Nat) (text : String) : Option Nat :=
  depthAfter (· == '\x7b') (· == '\x7d') depth text.toList

/-- The text closes as many braces as it opens, and no beginning of it closes
more than it opens. -/
structure BracesBalanced (text : String) : Prop where
  total : text.toList.count '\x7d' = text.toList.count '\x7b'
  beginnings : ∀ n, (text.toList.take n).count '\x7d' ≤ (text.toList.take n).count '\x7b'

section Braces

variable {depth depth' : Nat} {s t : String}

theorem bracesBalanced_iff {text : String} :
    BracesBalanced text ↔ braceDepth 0 text = some 0 := by
  rw [braceDepth, depthAfter_eq_some_iff (by simp)]
  simp only [Nat.zero_add]
  exact ⟨fun h => ⟨h.beginnings, h.total⟩, fun h => ⟨h.2, h.1⟩⟩

attribute [simp] depthAfter_cons depthStep

/-- A text that does not vary is walked over character by character. -/
@[simp low] theorem braceDepth_eq :
    braceDepth depth s = depthAfter (· == '\x7b') (· == '\x7d') depth s.toList := rfl

@[simp] theorem braceDepth_append :
    braceDepth depth (s ++ t) = (braceDepth depth s).bind (braceDepth · t) := by
  rw [braceDepth, String.toList_append, depthAfter_append]
  rfl

theorem braceDepth_even (h : depthAfter (· == '\x7b') (· == '\x7d') 0 s.toList = some 0) :
    braceDepth depth s = some depth := by
  simpa [braceDepth] using depthAfter_add h depth

theorem braceDepth_opens (h : depthAfter (· == '\x7b') (· == '\x7d') 0 s.toList = some 1) :
    braceDepth depth s = some (depth + 1) := by
  simpa [braceDepth, Nat.add_comm] using depthAfter_add h depth

theorem braceDepth_closes (h : depthAfter (· == '\x7b') (· == '\x7d') 1 s.toList = some 0) :
    braceDepth (depth + 1) s = some depth := by
  simpa [braceDepth, Nat.add_comm] using depthAfter_add h depth

theorem braceDepth_of_not_mem (h : '\x7b' ∉ s.toList ∧ '\x7d' ∉ s.toList) :
    braceDepth depth s = some depth :=
  depthAfter_neutral fun _ hc =>
    ⟨beq_false_of_ne fun heq => h.1 (heq ▸ hc), beq_false_of_ne fun heq => h.2 (heq ▸ hc)⟩

@[simp] theorem braceDepth_int (n : Int) : braceDepth depth n.repr = some depth :=
  braceDepth_of_not_mem ⟨not_mem_int (by decide) n, not_mem_int (by decide) n⟩

@[simp] theorem braceDepth_nat (n : Nat) : braceDepth depth n.repr = some depth :=
  braceDepth_of_not_mem ⟨not_mem_nat (by decide) n, not_mem_nat (by decide) n⟩

/-- Tabs and line ends are no braces. -/
@[simp] theorem braceDepth_render (line : Line) :
    braceDepth depth line.render = braceDepth depth line.text := by
  have htabs : braceDepth depth (String.ofList (List.replicate line.indent.level '\t')) =
      some depth := by
    refine braceDepth_of_not_mem ⟨?_, ?_⟩ <;> simp
  have hend (depth : Nat) : braceDepth depth "\n" = some depth :=
    braceDepth_even (by rw [String.toList_ofList]; rfl)
  rw [Line.render, Indent.toText, braceDepth_append, braceDepth_append, htabs, Option.bind_some]
  simp only [hend, Option.bind_fun_some]

theorem braceDepth_lines (lines : List Line) :
    braceDepth depth (String.join (lines.map Line.render)) =
      braceDepth depth (String.join (lines.map Line.text)) := by
  induction lines generalizing depth with
  | nil => rfl
  | cons line rest ih =>
    rw [List.map_cons, List.map_cons, String.join_cons, String.join_cons, braceDepth_append,
      braceDepth_append, braceDepth_render]
    simp only [ih]

theorem braceDepth_describe (i : Instruction) : braceDepth depth i.describe = some depth := by
  have hname (depth : Nat) (op : Opcode) : braceDepth depth op.mnemonic = some depth := by
    cases op <;> exact braceDepth_even (by rw [Opcode.mnemonic, String.toList_ofList]; rfl)
  unfold Instruction.describe Instruction.toText
  split <;> simp [hname]

end Braces

/-! ## 3. Blocks of a stream -/

namespace Stream

/-- Every block is closed in the stream that opens it, and conversely. -/
structure Nested (code : List Instruction) : Prop where
  closesOpened : ClosesOpened code
  closesAll : closes code = opens code

/-- The depth of blocks behind a stream. -/
def blockDepth (depth : Nat) (code : List Instruction) : Option Nat :=
  depthAfter (fun i => i.opcode.opensBlock) (fun i => i.opcode.closesBlock) depth code

section Blocks

variable {code before rest : List Instruction} {i : Instruction} {depth : Nat}

theorem blockDepth_eq_some_iff {depth' : Nat} : blockDepth depth code = some depth' ↔
    (∀ k, closes (code.take k) ≤ depth + opens (code.take k)) ∧
      depth' + closes code = depth + opens code := by
  refine depthAfter_eq_some_iff fun i => ?_
  cases i.opcode <;> simp [Opcode.opensBlock, Opcode.closesBlock]

theorem nested_iff : Nested code ↔ blockDepth 0 code = some 0 := by
  rw [blockDepth_eq_some_iff]
  simp only [Nat.zero_add]
  exact ⟨fun h => ⟨h.closesOpened, h.closesAll⟩, fun h => ⟨h.1, h.2⟩⟩

theorem closesOpened_iff : ClosesOpened code ↔ ∃ depth, blockDepth 0 code = some depth := by
  constructor
  · intro h
    have hall := h code.length
    rw [List.take_length] at hall
    refine ⟨opens code - closes code, blockDepth_eq_some_iff.2
      ⟨fun k => Nat.le_trans (h k) (Nat.le_add_left _ _), by omega⟩⟩
  · rintro ⟨depth, h⟩ k
    simpa using (blockDepth_eq_some_iff.1 h).1 k

theorem blockDepth_append : blockDepth depth (before ++ rest) =
    (blockDepth depth before).bind (blockDepth · rest) :=
  depthAfter_append ..

theorem ClosesOpened.of_append (h : ClosesOpened (before ++ rest)) : ClosesOpened before := by
  obtain ⟨depth, hdepth⟩ := closesOpened_iff.1 h
  rw [blockDepth_append, Option.bind_eq_some_iff] at hdepth
  obtain ⟨behind, hbehind, -⟩ := hdepth
  exact closesOpened_iff.2 ⟨behind, hbehind⟩

/-- **The partner of a closing instruction** is an opening one, and all blocks
in between are closed there. -/
theorem exists_partner (h : ClosesOpened (before ++ i :: rest))
    (hcloses : i.opcode.closesBlock = true) :
    ∃ outside start inner, before = outside ++ start :: inner ∧ start.opcode.opensBlock = true ∧
      Nested inner := by
  obtain ⟨depth, hdepth⟩ := closesOpened_iff.1 h
  rw [blockDepth_append, Option.bind_eq_some_iff] at hdepth
  obtain ⟨level, hbefore, hrest⟩ := hdepth
  have hkinds : i.opcode.opensBlock = false := by
    cases hop : i.opcode <;> simp_all [Opcode.opensBlock, Opcode.closesBlock]
  cases level with
  | zero =>
    rw [blockDepth, depthAfter_cons, depthStep, hkinds, hcloses] at hrest
    cases hrest
  | succ level =>
    obtain ⟨outside, start, inner, hsplit, hopens, hinner⟩ :=
      exists_opening hbefore (Nat.zero_le level)
    exact ⟨outside, start, inner, hsplit, hopens, nested_iff.2 hinner⟩

end Blocks

end Stream

/-! ## 4. Formats with braces -/

namespace Dialect

/-- The format opens and closes a block with a brace; all else comes out even,
but for the block around the whole code. -/
structure Braced (d : Dialect) : Prop where
  mark : ∀ depth, braceDepth depth d.commentMark = some depth
  header : braceDepth 0 (String.join (d.header.map Line.text)) = some 1
  footer : braceDepth 1 (String.join (d.footer.map Line.text)) = some 0
  closer : d.closer = "\x7d"
  first : ∀ i lines, d.statement i = some lines → ∃ text rest, lines = (0, text) :: rest
  plain : ∀ i lines, d.statement i = some lines → i.Plain → ∀ depth,
    braceDepth depth (String.join (lines.map Prod.snd)) = some depth
  opening : ∀ i lines, d.statement i = some lines → i.opcode.opensBlock = true →
    ∃ ahead, lines = [(0, ahead ++ "\x7b")] ∧ ∀ depth, braceDepth depth ahead = some depth
  closing : ∀ i lines, d.statement i = some lines → i.opcode.closesBlock = true →
    lines = [(0, "\x7d")]

variable (d : Dialect) (comments : Bool)

/-- The lines that are written for an instruction behind some others. -/
def linesOf (before : List Instruction) (i : Instruction) : List String :=
  ((d.emitter comments).step (before.foldl exitIndent base) i).pieces.map Line.render

/-- The text that is written for some instructions behind others. -/
def textOf (before : List Instruction) : List Instruction → String
  | [] => ""
  | i :: rest => String.join (d.linesOf comments before i) ++ textOf (before ++ [i]) rest

variable {d comments} {before part rest : List Instruction} {i : Instruction}

/-- The text is that of the pieces, if the format has words for all of them. -/
theorem textOf_eq (h : ∀ i ∈ part, d.statement i ≠ none) :
    d.textOf comments before part = String.join
      (((d.emitter comments).piecesOf (before.foldl exitIndent base) part).map Line.render) := by
  induction part generalizing before with
  | nil => rfl
  | cons i rest ih =>
    rw [List.forall_mem_cons] at h
    rw [textOf, ih h.2, Emitter.piecesOf, Emitter.next_of_ok (result_step comments _ h.1),
      List.map_append, String.join_append, List.foldl_append]
    rfl

/-- What precedes the code of an instruction: its comment, if there is one. -/
def noteOf (d : Dialect) (comments : Bool) (before : List Instruction) (i : Instruction) :
    List Line :=
  if comments then [d.comment (before.foldl exitIndent base) i] else []

theorem linesOf_eq {lines : List (Nat × String)} (h : d.statement i = some lines) :
    d.linesOf comments before i =
      (d.noteOf comments before i ++
        place (entryIndent (before.foldl exitIndent base) i) lines).map Line.render := by
  cases comments <;>
    simp [linesOf, noteOf, emitter, Emitter.withComments, Emitter.annotated, plainEmitter, h,
      Written.ok]

/-! ### Braces -/

theorem braceDepth_noteOf (hd : d.Braced) (depth : Nat) :
    braceDepth depth (String.join ((d.noteOf comments before i).map Line.text)) = some depth := by
  cases comments with
  | false => exact braceDepth_even rfl
  | true =>
    have htext : String.join ((d.noteOf true before i).map Line.text) =
        d.commentMark ++ i.describe := by
      simp [noteOf, comment]
    rw [htext, braceDepth_append, hd.mark, Option.bind_some, braceDepth_describe]

/-- **One instruction** changes the depth of braces as it changes that of
blocks. -/
theorem braceDepth_linesOf (hd : d.Braced) (hi : d.statement i ≠ none) {depth depth' : Nat}
    (h : Stream.blockDepth depth [i] = some depth') :
    braceDepth depth (String.join (d.linesOf comments before i)) = some depth' := by
  obtain ⟨lines, hlines⟩ := Option.ne_none_iff_exists'.1 hi
  have htexts : ((place (entryIndent (before.foldl exitIndent base) i) lines).map Line.text) =
      lines.map Prod.snd := by
    simp [place]
  have hopen (depth : Nat) : braceDepth depth "\x7b" = some (depth + 1) :=
    braceDepth_opens (by rw [String.toList_ofList]; rfl)
  have hclose (depth : Nat) : braceDepth (depth + 1) "\x7d" = some depth :=
    braceDepth_closes (by rw [String.toList_ofList]; rfl)
  rw [linesOf_eq hlines, braceDepth_lines, List.map_append, String.join_append, braceDepth_append,
    braceDepth_noteOf hd, Option.bind_some, htexts]
  rw [Stream.blockDepth, depthAfter_cons, Option.bind_eq_some_iff] at h
  obtain ⟨next, hnext, hdepth⟩ := h
  cases hdepth
  unfold depthStep at hnext
  split_ifs at hnext with hopens hcloses hzero <;> cases hnext
  · obtain ⟨ahead, rfl, hahead⟩ := hd.opening i lines hlines hopens
    simp [braceDepth_append, hahead, hopen]
  · obtain ⟨level, rfl⟩ := Nat.exists_eq_succ_of_ne_zero hzero
    rw [hd.closing i lines hlines hcloses]
    simp [hclose]
  · exact hd.plain i lines hlines ⟨by simpa using hopens, by simpa using hcloses⟩ depth

/-- **Braces follow blocks.** -/
theorem braceDepth_textOf (hd : d.Braced) (hpart : ∀ i ∈ part, d.statement i ≠ none)
    {depth depth' : Nat} (h : Stream.blockDepth depth part = some depth') :
    braceDepth depth (d.textOf comments before part) = some depth' := by
  induction part generalizing before depth with
  | nil => exact h
  | cons i rest ih =>
    rw [List.forall_mem_cons] at hpart
    have hsplit : i :: rest = [i] ++ rest := rfl
    rw [hsplit, Stream.blockDepth_append, Option.bind_eq_some_iff] at h
    obtain ⟨next, hnext, hrest⟩ := h
    rw [textOf, braceDepth_append, braceDepth_linesOf hd hpart.1 hnext, Option.bind_some]
    exact ih hpart.2 hrest

/-! ### Indentation -/

theorem level_base (h : Stream.ClosesOpened before) :
    (before.foldl exitIndent base).level + Stream.closes before = 1 + Stream.opens before :=
  level_exitIndent fun k => Nat.le_trans (h k) (Nat.le_add_left _ _)

theorem level_entryIndent (h : Stream.ClosesOpened (before ++ [i])) :
    (entryIndent (before.foldl exitIndent base) i).level =
      1 + (Stream.opens before - Stream.closes (before ++ [i])) := by
  have hbefore := level_base h.of_append
  have hcloses : Stream.closes (before ++ [i]) =
      Stream.closes before + if i.opcode.closesBlock then 1 else 0 := by
    simp [Stream.closes, List.countP_append]
  have hopens : Stream.opens (before ++ [i]) =
      Stream.opens before + if i.opcode.opensBlock then 1 else 0 := by
    simp [Stream.opens, List.countP_append]
  have hopened := h (before ++ [i]).length
  have hall := h.of_append before.length
  rw [List.take_length] at hopened hall
  unfold entryIndent
  cases hop : i.opcode <;>
    simp_all [Opcode.opensBlock, Opcode.closesBlock, Indent.shallower] <;> omega

/-- The first line of code of an instruction stands at the depth of the blocks
around it. -/
theorem find?_linesOf {lead : Char} (hlegible : d.Legible lead) (hd : d.Braced)
    (hi : d.statement i ≠ none) (h : Stream.ClosesOpened (before ++ [i])) :
    ∃ line, (d.linesOf comments before i).find? (fun line => !d.target.isComment line) =
        some line ∧
      leadingTabs line = 1 + (Stream.opens before - Stream.closes (before ++ [i])) := by
  obtain ⟨lines, hlines⟩ := Option.ne_none_iff_exists'.1 hi
  obtain ⟨text, rest, rfl⟩ := hd.first i lines hlines
  let line : Line := ⟨entryIndent (before.foldl exitIndent base) i, text, .code⟩
  have hcode : line.IsCode lead :=
    ⟨rfl, hlegible.statement i _ hlines (0, text) (List.mem_cons_self ..)⟩
  refine ⟨line.render, ?_, ?_⟩
  · have hplace : place (entryIndent (before.foldl exitIndent base) i) ((0, text) :: rest) =
        line :: place (entryIndent (before.foldl exitIndent base) i) rest := rfl
    have hfirst : (!d.target.isComment line.render) = true := by
      rw [hlegible.isComment_code hcode]
      rfl
    rw [linesOf_eq hlines, hplace]
    cases comments with
    | false => simp [noteOf, hfirst]
    | true =>
      have hnote := (hlegible.isComment_comment (before.foldl exitIndent base) i).2
      simp [noteOf, hfirst, hnote]
  · rw [Line.leadingTabs_render hcode.text.starts.1]
    exact level_entryIndent h

/-! ### Partners -/

/-- An instruction with a single line of code: tabs and a comment stand before
it, which are no braces. -/
theorem exists_margin (comments : Bool) (before : List Instruction) (hd : d.Braced)
    {text : String} (h : d.statement i = some [(0, text)]) :
    ∃ margin, (∀ depth, braceDepth depth margin = some depth) ∧
      String.join (d.linesOf comments before i) = margin ++ text ++ "\n" := by
  let indent := entryIndent (before.foldl exitIndent base) i
  have htabs (depth : Nat) : braceDepth depth indent.toText = some depth :=
    braceDepth_of_not_mem (by simp [Indent.toText])
  refine ⟨String.join ((d.noteOf comments before i).map Line.render) ++ indent.toText, ?_, ?_⟩
  · intro depth
    rw [braceDepth_append, braceDepth_lines, braceDepth_noteOf hd, Option.bind_some, htabs]
  · have hplace : place indent [(0, text)] = [⟨indent, text, .code⟩] := rfl
    rw [linesOf_eq h, hplace, List.map_append, String.join_append]
    simp [Line.render, String.append_assoc]

/-- **A block is enclosed in braces**: the instruction that opens it ends with
a brace, the one that closes it has the other brace, and what is written in
between is balanced. -/
theorem exists_braces (hd : d.Braced) {start stop : Instruction} {inner : List Instruction}
    (hstart : d.statement start ≠ none) (hopens : start.opcode.opensBlock = true)
    (hinner : ∀ i ∈ inner, d.statement i ≠ none) (hnested : Stream.Nested inner)
    (hstop : d.statement stop ≠ none) (hcloses : stop.opcode.closesBlock = true) :
    ∃ ahead margin,
      String.join (d.linesOf comments before start) = ahead ++ "\x7b" ++ "\n" ∧
      String.join (d.linesOf comments (before ++ start :: inner) stop) =
        margin ++ "\x7d" ++ "\n" ∧
      BracesBalanced ("\n" ++ d.textOf comments (before ++ [start]) inner ++ margin) := by
  obtain ⟨lines, hlines⟩ := Option.ne_none_iff_exists'.1 hstart
  obtain ⟨ahead, rfl, -⟩ := hd.opening start lines hlines hopens
  obtain ⟨lines', hlines'⟩ := Option.ne_none_iff_exists'.1 hstop
  cases hd.closing stop lines' hlines' hcloses
  obtain ⟨margin, -, hstartText⟩ := exists_margin comments before hd hlines
  obtain ⟨margin', heven, hstopText⟩ :=
    exists_margin comments (before ++ start :: inner) hd hlines'
  refine ⟨margin ++ ahead, margin', by rw [hstartText, ← String.append_assoc], hstopText, ?_⟩
  have hend : braceDepth 0 "\n" = some 0 := braceDepth_even (by rw [String.toList_ofList]; rfl)
  rw [bracesBalanced_iff, braceDepth_append, braceDepth_append, hend, Option.bind_some,
    braceDepth_textOf hd hinner (Stream.nested_iff.1 hnested), Option.bind_some, heven]

/-! ### The whole text -/

/-- The lines that close so many blocks at the end. -/
def closingText (count : Nat) : String :=
  String.join ((List.range count).reverse.map
    (fun depth => Line.render ⟨⟨1 + depth⟩, "\x7d", .code⟩))

theorem join_closers (hd : d.Braced) (indent : Indent) :
    String.join ((d.closers indent).map Line.render) = closingText (indent.level - 1) := by
  rw [closers, hd.closer, List.map_map]
  rfl

theorem braceDepth_closingText (count depth : Nat) :
    braceDepth (depth + count) (closingText count) = some depth := by
  have hclose (depth : Nat) : braceDepth (depth + 1) "\x7d" = some depth :=
    braceDepth_closes (by rw [String.toList_ofList]; rfl)
  induction count with
  | zero => exact braceDepth_even rfl
  | succ count ih =>
    rw [closingText, List.range_succ, List.reverse_append, List.reverse_singleton,
      List.singleton_append, List.map_cons, String.join_cons, braceDepth_append,
      braceDepth_render, ← Nat.add_assoc, hclose]
    exact ih

/-- What is written of a stream. -/
theorem text_emit (hd : d.Braced) (hcode : ∀ i ∈ before, d.statement i ≠ none)
    (hopened : Stream.ClosesOpened before) :
    (((d.emitter comments).emit before).map Line.render).text =
      String.join (d.header.map Line.render) ++ d.textOf comments [] before
        ++ closingText (Stream.opens before - Stream.closes before)
        ++ String.join (d.footer.map Line.render) := by
  have hlevel := level_base hopened
  have hcount : (before.foldl exitIndent base).level - 1 =
      Stream.opens before - Stream.closes before := by
    have hall := hopened before.length
    rw [List.take_length] at hall
    omega
  rw [Emission.text_map, (emit_eq comments hcode).1, textOf_eq hcode, ← hcount,
    ← join_closers hd]
  simp [String.join_append, String.append_assoc]

end Dialect

/-- What the text of a stream shows of its blocks, in a format with braces. -/
structure Dialect.MirrorsBlocks (d : Dialect) (comments : Bool) (code : List Instruction)
    (text : String) : Prop where
  /-- Between header and footer stand the lines of the instructions, and then
  a closing brace for each block that is left open. -/
  layout : text = String.join (d.header.map Line.render) ++ d.textOf comments [] code
    ++ closingText (Stream.opens code - Stream.closes code)
    ++ String.join (d.footer.map Line.render)
  /-- The first line of an instruction that is no comment is indented by one
  tab, and one more for each open block around it. -/
  indented : ∀ before i rest, code = before ++ i :: rest →
    ∃ line, (d.linesOf comments before i).find? (fun line => !d.target.isComment line) =
        some line ∧
      leadingTabs line = 1 + (Stream.opens before - Stream.closes (before ++ [i]))
  /-- An instruction that closes a block writes the brace that closes the one
  of its partner. -/
  paired : ∀ upto stop rest, code = upto ++ stop :: rest → stop.opcode.closesBlock = true →
    ∃ before start inner, upto = before ++ start :: inner ∧
      start.opcode.opensBlock = true ∧ Stream.Nested inner ∧
      ∃ ahead margin,
        String.join (d.linesOf comments before start) = ahead ++ "\x7b" ++ "\n" ∧
        String.join (d.linesOf comments (before ++ start :: inner) stop) =
          margin ++ "\x7d" ++ "\n" ∧
        BracesBalanced ("\n" ++ d.textOf comments (before ++ [start]) inner ++ margin)
  balanced : BracesBalanced text

/-- **A format with braces shows the blocks of a stream.** -/
theorem Dialect.mirrorsBlocks {d : Dialect} {lead : Char} {comments : Bool}
    {code : List Instruction} (hlegible : d.Legible lead) (hd : d.Braced)
    (hcode : ∀ i ∈ code, d.statement i ≠ none) (hopened : Stream.ClosesOpened code) :
    d.MirrorsBlocks comments code (((d.emitter comments).emit code).map Line.render).text := by
  constructor
  case layout => exact text_emit hd hcode hopened
  case indented =>
    rintro before i rest rfl
    have hsplit : before ++ i :: rest = (before ++ [i]) ++ rest := by simp
    rw [hsplit] at hopened
    exact find?_linesOf hlegible hd (hcode i (by simp)) hopened.of_append
  case paired =>
    rintro upto stop rest rfl hcloses
    obtain ⟨before, start, inner, rfl, hopens, hnested⟩ := Stream.exists_partner hopened hcloses
    refine ⟨before, start, inner, rfl, hopens, hnested, ?_⟩
    exact exists_braces hd (hcode start (by simp)) hopens (fun i hi => hcode i (by simp [hi]))
      hnested (hcode stop (by simp)) hcloses
  case balanced =>
    obtain ⟨depth, hdepth⟩ := Stream.closesOpened_iff.1 hopened
    have hcount : depth = Stream.opens code - Stream.closes code := by
      have htotal := (Stream.blockDepth_eq_some_iff.1 hdepth).2
      omega
    have hinside : braceDepth 1 (d.textOf comments [] code) = some (1 + depth) := by
      refine braceDepth_textOf hd hcode ?_
      simpa [Stream.blockDepth, Nat.add_comm] using depthAfter_add hdepth 1
    rw [text_emit hd hcode hopened, bracesBalanced_iff, braceDepth_append, braceDepth_append,
      braceDepth_append, braceDepth_lines, hd.header, Option.bind_some, hinside,
      Option.bind_some, ← hcount, braceDepth_closingText, Option.bind_some, braceDepth_lines,
      hd.footer]

/-! ## 5. Wordings -/

section Wordings

/-- A text that ends with a brace, and comes out even before it. -/
theorem opening_text (ahead : List Char)
    (h : depthAfter (· == '\x7b') (· == '\x7d') 0 ahead = some 0) :
    ∃ text, [(0, String.ofList (ahead ++ ['\x7b']))] = [(0, text ++ "\x7b")] ∧
      ∀ depth, braceDepth depth text = some depth :=
  ⟨String.ofList ahead, by rw [String.ofList_append], fun depth =>
    braceDepth_even (by rwa [String.toList_ofList])⟩

theorem CCode.braced (options : EmitOptions) : (CCode.dialect options).Braced := by
  constructor
  case mark => exact fun depth => braceDepth_even (by rw [dialect, String.toList_ofList]; rfl)
  case closer => rfl
  case header =>
    simp only [dialect, header, wordType, Line.atMargin]
    cases options.width <;> simp
  case footer => simp [dialect, Line.atMargin]
  case first =>
    rintro i lines hlines
    cases hlines
    unfold statement repeated
    cases i.opcode <;> dsimp only <;> (repeat' split) <;> exact ⟨_, _, rfl⟩
  case plain =>
    rintro i lines hlines ⟨hopens, hcloses⟩ depth
    cases hlines
    unfold statement repeated cell wordType
    cases hop : i.opcode <;> dsimp only
    case loopStart | guard => simp [hop, Opcode.opensBlock] at hopens
    case loopEnd | label => simp [hop, Opcode.closesBlock] at hcloses
    all_goals
      (repeat' split) <;> simp
  case opening =>
    rintro i lines hlines hopens
    cases hlines
    unfold statement
    cases hop : i.opcode <;> simp only [hop, Opcode.opensBlock, Bool.false_eq_true] at hopens
    · exact opening_text "while (*p) ".toList (by decide)
    · exact opening_text "if (*p) ".toList (by decide)
  case closing =>
    rintro i lines hlines hcloses
    cases hlines
    unfold statement
    cases hop : i.opcode <;> simp [hop, Opcode.closesBlock] at hcloses ⊢

/-- The parts that read and write come out even. -/
theorem JavaScript.braceDepth_part (depth : Nat) : ∀ part ∈ [inputPart, outputPart, []],
    braceDepth depth (String.join (part.map Line.text)) = some depth := by
  simp only [List.forall_mem_cons, List.not_mem_nil, false_implies, implies_true, and_true]
  refine ⟨?_, ?_, ?_⟩ <;> refine braceDepth_even ?_ <;> rw [String.toList_join]
  -- single lines open more than they close, so all characters are walked over at once
  all_goals
    simp only [inputPart, outputPart, Line.atMargin, List.map_cons, List.map_nil,
      List.flatMap_cons, List.flatMap_nil]
    repeat rw [String.toList_ofList]
    decide +kernel

theorem JavaScript.braceDepth_header (options : EmitOptions) (reads : Bool) :
    braceDepth 0 (String.join ((header options reads).map Line.text)) = some 1 := by
  have hinput (depth : Nat) :
      braceDepth depth (String.join ((if reads then inputPart else []).map Line.text)) =
        some depth :=
    braceDepth_part depth _ (by cases reads <;> simp)
  have houtput (depth : Nat) :
      braceDepth depth (String.join (outputPart.map Line.text)) = some depth :=
    braceDepth_part depth _ (by simp)
  have htype (depth : Nat) : braceDepth depth (arrayType options.width) = some depth := by
    cases options.width <;> exact braceDepth_even (by rw [arrayType, String.toList_ofList]; rfl)
  simp [header, Line.atMargin, hinput, houtput,
    htype]

theorem JavaScript.braced (options : EmitOptions) (reads : Bool) :
    (JavaScript.dialect options reads).Braced := by
  constructor
  case mark => exact fun depth => braceDepth_even (by rw [dialect, String.toList_ofList]; rfl)
  case closer => rfl
  case header => exact braceDepth_header options reads
  case footer =>
    cases reads <;>
      simp [dialect, footer, Line.atMargin]
  case first =>
    intro i lines hlines
    change statement? i = some lines at hlines
    unfold statement? repeated at hlines
    cases hop : i.opcode <;> simp only [hop] at hlines
    all_goals (repeat' split at hlines) <;> cases hlines <;> exact ⟨_, _, rfl⟩
  case plain =>
    rintro i lines hlines ⟨hopens, hcloses⟩ depth
    change statement? i = some lines at hlines
    unfold statement? repeated cell at hlines
    cases hop : i.opcode <;> simp only [hop] at hlines
    case loopStart | guard => simp [hop, Opcode.opensBlock] at hopens
    case loopEnd | label => simp [hop, Opcode.closesBlock] at hcloses
    all_goals
      (repeat' split at hlines) <;> cases hlines <;>
      simp
  case opening =>
    rintro i lines hlines hopens
    change statement? i = some lines at hlines
    unfold statement? at hlines
    cases hop : i.opcode <;> simp only [hop, Opcode.opensBlock, Bool.false_eq_true] at hopens
    all_goals simp only [hop] at hlines; cases hlines
    · exact opening_text "while (mem[p]) ".toList (by decide)
    · exact opening_text "if (mem[p]) ".toList (by decide)
  case closing =>
    rintro i lines hlines hcloses
    change statement? i = some lines at hlines
    unfold statement? at hlines
    cases hop : i.opcode <;> simp only [hop, Opcode.closesBlock, Bool.false_eq_true] at hcloses
    all_goals simp only [hop] at hlines; cases hlines; rfl

end Wordings

/-! ## 6. Two formats -/

namespace Stream

/-- The wording of a format with braces. -/
def braceDialect (target : Target) (options : EmitOptions) (code : List Instruction) : Dialect :=
  match target with
  | .javaScript => JavaScript.dialect options (code.any fun i => i.opcode == .read)
  | _ => CCode.dialect options

/-- **The text shows the blocks of its stream**, where a stream closes nothing
that it did not open. -/
theorem text_mirrors_blocks (target : Target) (htarget : target ∈ [.c, .javaScript])
    (options : EmitOptions) (code : List Instruction) {warnings : List Warning}
    (hok : (emission target options code).outcome = .ok warnings)
    (hopened : ClosesOpened code) :
    (braceDialect target options code).MirrorsBlocks options.comments code
      (emission target options code).text := by
  cases target with
  | c =>
    exact Dialect.mirrorsBlocks (CCode.legible options) (CCode.braced options)
      (Dialect.statement_ne_none_of_ok hok) hopened
  | javaScript =>
    exact Dialect.mirrorsBlocks (JavaScript.legible options _) (JavaScript.braced options _)
      (Dialect.statement_ne_none_of_ok hok) hopened
  | qbe | llvm | symbols | listing => simp at htarget

/-- A loop that is left open, with a closed block in it, in a text with
comments. -/
theorem text_mirrors_blocks_open_loop :
    Target.javaScript ∈ [Target.c, .javaScript] ∧
      (emission .javaScript { comments := true } [⟨.loopStart, 1, 0, none⟩, ⟨.read, 2, 0, none⟩,
        ⟨.guard, 1, 0, none⟩, ⟨.write, 2, 0, none⟩, ⟨.label, 1, 0, none⟩]).outcome =
          .ok [.unbalanced] ∧
      ClosesOpened [⟨.loopStart, 1, 0, none⟩, ⟨.read, 2, 0, none⟩, ⟨.guard, 1, 0, none⟩,
        ⟨.write, 2, 0, none⟩, ⟨.label, 1, 0, none⟩] ∧
      (braceDialect .javaScript { comments := true } [⟨.loopStart, 1, 0, none⟩,
        ⟨.read, 2, 0, none⟩, ⟨.guard, 1, 0, none⟩, ⟨.write, 2, 0, none⟩,
        ⟨.label, 1, 0, none⟩]).MirrorsBlocks true
        [⟨.loopStart, 1, 0, none⟩, ⟨.read, 2, 0, none⟩, ⟨.guard, 1, 0, none⟩,
          ⟨.write, 2, 0, none⟩, ⟨.label, 1, 0, none⟩]
        (emission .javaScript { comments := true } [⟨.loopStart, 1, 0, none⟩,
          ⟨.read, 2, 0, none⟩, ⟨.guard, 1, 0, none⟩, ⟨.write, 2, 0, none⟩,
          ⟨.label, 1, 0, none⟩]).text :=
  ⟨by decide, rfl, closesOpened_iff.2 ⟨1, rfl⟩,
    text_mirrors_blocks .javaScript (by decide) { comments := true }
      [⟨.loopStart, 1, 0, none⟩, ⟨.read, 2, 0, none⟩, ⟨.guard, 1, 0, none⟩,
        ⟨.write, 2, 0, none⟩, ⟨.label, 1, 0, none⟩] rfl (closesOpened_iff.2 ⟨1, rfl⟩)⟩

end Stream

end TapeCompiler
