/-
TapeCompiler.Proofs.SymbolText — reading back a stream written as symbols.

The text of a stream is, for each instruction, a note about it if notes are
asked for, and then its symbol as often as its count says. A note is made of
line ends, digits, colons, blanks and letters, none of which is a symbol, so
it moves the reader's cursor and nothing else (`Reader.feed_comment`).

What comes back is not the stream itself. Counts are written out, and loops
have new labels, the first one 1 and so on in the order in which the loops
are opened: `LoopTree.spelledOut` says so on the tree of the stream's loops.
Positions are those in the new text, hence `Instruction.unplaced`.

The induction for streams that are properly nested is on the tree, with any
reader at its start, because loops around the tree may be open. For all
other streams it is on the stream: the loops that the reader has open are
as many as the walk of `Stream.enterLoop` has open, so a text that is
accepted comes from a stream that can be read as a tree.
-/
import TapeCompiler.Emit
import TapeCompiler.Merge
import TapeCompiler.Source
import TapeCompiler.Proofs.LoopNesting
import TapeCompiler.Proofs.Delivery

namespace TapeCompiler

/-! ## 1. What comes back -/

/-- The instruction without its position. -/
def Instruction.unplaced (i : Instruction) : Instruction := { i with position := none }

/-- Each step as often as its count says, which is not at all for a count
below zero, and the loops numbered from `first` on as they are opened. -/
def LoopTree.spelledOut (first : Nat) : LoopTree → List Instruction
  | done => []
  | step i _ rest => List.replicate i.value.toNat ⟨i.opcode, 1, 0, none⟩ ++ rest.spelledOut first
  | loop _ body _ _ _ rest =>
    ⟨.loopStart, first, 0, none⟩ :: (body.spelledOut (first + 1) ++
      ⟨.loopEnd, first, 0, none⟩ :: rest.spelledOut (first + 1 + body.loops))

/-- A step that is written as one character. -/
structure Instruction.IsUnit (i : Instruction) : Prop where
  counted : i.opcode.isCounted = true
  value : i.value = 1
  offset : i.offset = 0
  position : i.position = none

namespace Instruction.IsUnit

variable {i : Instruction}

theorem symbol (h : i.IsUnit) : i.opcode.symbol? ≠ none := by
  have hcounted := h.counted
  cases hop : i.opcode <;> simp_all [Opcode.isCounted, Opcode.symbol?]

theorem outside (h : i.IsUnit) : i.OutsideLoops := by
  have hcounted := h.counted
  constructor <;> intro hop <;> simp [hop, Opcode.isCounted] at hcounted

theorem eq (h : i.IsUnit) : i = ⟨i.opcode, 1, 0, none⟩ := by
  obtain ⟨opcode, value, offset, position⟩ := i
  obtain ⟨-, rfl, rfl, rfl⟩ := h
  rfl

end Instruction.IsUnit

/-- Spelling a row of such steps out changes nothing. -/
theorem LoopTree.spelledOut_units {steps : List Instruction} (h : ∀ i ∈ steps, i.IsUnit)
    (houtside : ∀ i ∈ steps, i.OutsideLoops) (first : Nat) :
    (prepend steps houtside done).spelledOut first = steps := by
  induction steps with
  | nil => rfl
  | cons i steps ih =>
    rw [List.forall_mem_cons] at h
    have hone : i.value.toNat = 1 := by rw [h.1.value]; rfl
    rw [prepend, spelledOut, ih h.2, hone, List.replicate_one, ← h.1.eq, List.singleton_append]

/-! ## 2. The text -/

namespace Symbols

/-- The characters written for an instruction. -/
def chars (comments : Bool) (i : Instruction) : List Char :=
  ((emitter comments).step () i).pieces.flatMap (fun piece => piece.render.toList)

/-- The characters of the note about an instruction. -/
def noteChars (comments : Bool) (i : Instruction) : List Char :=
  if comments then (Piece.note i.opcode i.position).render.toList else []

theorem chars_eq {i : Instruction} {symbol : Char} (h : i.opcode.symbol? = some symbol)
    (comments : Bool) :
    chars comments i = noteChars comments i ++ List.replicate (count i) symbol := by
  cases comments <;> simp [chars, noteChars, emitter, h, Written.ok, Piece.render]

theorem length_chars_of_isUnit {i : Instruction} (h : i.IsUnit) : (chars false i).length = 1 := by
  obtain ⟨symbol, hsymbol⟩ := Option.ne_none_iff_exists'.1 h.symbol
  have hcounted := h.counted
  have hcount : count i = 1 := by
    unfold count
    cases hop : i.opcode <;> simp_all [Opcode.isCounted, h.value]
  simp [chars_eq hsymbol, noteChars, hcount]

/-- Every instruction that has a symbol is written. -/
theorem run_emitter (comments : Bool) {code : List Instruction}
    (h : ∀ i ∈ code, i.opcode.symbol? ≠ none) (done : Array Piece) :
    (emitter comments).run done () code =
      ⟨done ++ (code.flatMap (fun i => ((emitter comments).step () i).pieces)).toArray,
        .ok []⟩ := by
  induction code generalizing done with
  | nil => simp [Emitter.run, emitter, Written.ok]
  | cons i code ih =>
    obtain ⟨symbol, hsymbol⟩ := Option.ne_none_iff_exists'.1 (h i (by simp))
    have hstep : ((emitter comments).step () i).result = .ok () := by
      simp [emitter, hsymbol, Written.ok]
    rw [Emitter.run]
    simp only [hstep]
    rw [ih (fun j hj => h j (by simp [hj]))]
    simp [Array.append_assoc]

end Symbols

/-- The text of a stream whose instructions all have symbols. -/
theorem Stream.emission_symbols (options : EmitOptions) {code : List Instruction}
    (h : ∀ i ∈ code, i.opcode.symbol? ≠ none) :
    (Stream.emission .symbols options code).outcome = .ok [] ∧
      (Stream.emission .symbols options code).text.toList =
        code.flatMap (Symbols.chars options.comments) := by
  have hrun : Symbols.emission options code =
      ⟨(code.flatMap (fun i => ((Symbols.emitter options.comments).step () i).pieces)).toArray,
        .ok []⟩ := by
    simpa [Symbols.emission, Emitter.emit, Symbols.emitter, Written.ok] using
      Symbols.run_emitter options.comments h #[]
  refine ⟨by simp [Stream.emission, Emission.map, hrun], ?_⟩
  rw [Emission.toList_text]
  simp only [Stream.emission, Emission.map, hrun, List.map_toArray, List.flatMap_map,
    List.flatMap_assoc]
  rfl

/-! ## 3. Notes are comments -/

/-- No character of the text is a symbol. -/
def Source.Comment (text : List Char) : Prop := ∀ c ∈ text, Opcode.ofSymbol? c = none

instance Source.decidableComment (text : List Char) : Decidable (Source.Comment text) :=
  List.decidableBAll (fun c => Opcode.ofSymbol? c = none) text

namespace Source.Comment

theorem append {text text' : List Char} (h : Comment text) (h' : Comment text') :
    Comment (text ++ text') := by
  intro c hc
  rcases List.mem_append.1 hc with hc | hc
  · exact h c hc
  · exact h' c hc

/-- A number is a comment, because its characters are digits. -/
theorem toString_nat (n : Nat) : Comment (toString n).toList := by
  intro c hc
  have hdigit : c.isDigit = true := by
    simp only [Nat.toString_eq_repr, Nat.toList_repr] at hc
    exact Nat.isDigit_of_mem_toDigits (by decide) (by decide) hc
  cases hsymbol : Opcode.ofSymbol? c with
  | none => rfl
  | some op =>
    have hc' := Opcode.ofSymbol?_eq_some_iff.1 hsymbol
    cases op <;> simp [Opcode.symbol?] at hc' <;> subst hc' <;> cases hdigit

theorem mnemonic (op : Opcode) : Comment op.mnemonic.toList := by
  cases op <;> decide

theorem compact (p : Position) : Comment p.compact.toList := by
  have hcolon : Comment [':'] := by decide
  have htext : p.compact.toList =
      (toString p.line).toList ++ ([':'] ++ (toString p.column).toList) := by
    simp [Position.compact, ToString.toString]
  rw [htext]
  exact (toString_nat _).append (hcolon.append (toString_nat _))

theorem note (op : Opcode) (position : Option Position) :
    Comment (Symbols.Piece.note op position).render.toList := by
  have hline : Comment ['\n'] := by decide
  have hcolon : Comment [':', ' '] := by decide
  have hblank : Comment [' '] := by decide
  cases position with
  | none =>
    have htext : (Symbols.Piece.note op none).render.toList =
        ['\n'] ++ (op.mnemonic.toList ++ [' ']) := by
      simp [Symbols.Piece.render, ToString.toString]
    rw [htext]
    exact hline.append ((mnemonic op).append hblank)
  | some p =>
    have htext : (Symbols.Piece.note op (some p)).render.toList =
        ['\n'] ++ (p.compact.toList ++ ([':', ' '] ++ (op.mnemonic.toList ++ [' ']))) := by
      simp [Symbols.Piece.render, ToString.toString]
    rw [htext]
    exact hline.append ((compact p).append (hcolon.append ((mnemonic op).append hblank)))

end Source.Comment

/-! ## 4. Reading one instruction -/

namespace Reader

/-- The second reader has opened so many more loops than the first one and
has read these instructions more, positions apart. -/
structure Gains (r r' : Reader) (opened : Nat) (new : List Instruction) : Prop where
  loops : r'.loops = r.loops + opened
  code : r'.code.toList.map Instruction.unplaced =
    r.code.toList.map Instruction.unplaced ++ new

theorem Gains.refl (r : Reader) : r.Gains r 0 [] := ⟨rfl, by simp⟩

theorem Gains.trans {r r₁ r₂ : Reader} {opened opened' : Nat} {new new' : List Instruction}
    (h : r.Gains r₁ opened new) (h' : r₁.Gains r₂ opened' new') :
    r.Gains r₂ (opened + opened') (new ++ new') :=
  ⟨by rw [h'.loops, h.loops, Nat.add_assoc], by rw [h'.code, h.code, List.append_assoc]⟩

/-- A comment moves the cursor and does nothing else. -/
theorem feed_comment {text : List Char} (h : Source.Comment text) (r : Reader) :
    ∃ cursor, text.foldlM feed r = .ok { r with cursor } := by
  induction text generalizing r with
  | nil => exact ⟨r.cursor, rfl⟩
  | cons c text ih =>
    have hfeed : r.feed c = .ok { r with cursor := r.cursor.after c } := by
      simp [feed, accept, h c (by simp), bind, Except.bind, pure, Except.pure]
    obtain ⟨cursor, hrest⟩ :=
      ih (fun d hd => h d (by simp [hd])) { r with cursor := r.cursor.after c }
    exact ⟨cursor, bind_eq_ok_iff.2 ⟨_, hfeed, hrest⟩⟩

/-- A symbol that is no bracket, any number of times. -/
theorem feed_replicate {op : Opcode} {c : Char} (hc : op.symbol? = some c)
    (hstart : op ≠ .loopStart) (hend : op ≠ .loopEnd) (n : Nat) (r : Reader) :
    ∃ r', (List.replicate n c).foldlM feed r = .ok r' ∧ r'.pending = r.pending ∧
      r.Gains r' 0 (List.replicate n ⟨op, 1, 0, none⟩) := by
  induction n generalizing r with
  | zero => exact ⟨r, rfl, rfl, .refl r⟩
  | succ n ih =>
    have hop : Opcode.ofSymbol? c = some op := Opcode.ofSymbol?_eq_some_iff.2 hc
    have haccept : r.accept c = .ok (r.push op 1) := by
      unfold accept
      split <;> simp_all
    have hfeed : r.feed c = .ok { r.push op 1 with cursor := r.cursor.after c } := by
      simp [feed, haccept, bind, Except.bind, pure, Except.pure]
    have hgains : r.Gains { r.push op 1 with cursor := r.cursor.after c } 0
        [⟨op, 1, 0, none⟩] := ⟨rfl, by simp [push, Instruction.unplaced]⟩
    obtain ⟨r', hrest, hpending, hgains'⟩ := ih { r.push op 1 with cursor := r.cursor.after c }
    exact ⟨r', bind_eq_ok_iff.2 ⟨_, hfeed, hrest⟩, hpending, hgains.trans hgains'⟩

/-- The text of an instruction is read as its symbols are, from a reader
that differs in the cursor. -/
theorem feed_chars {i : Instruction} {c : Char} (h : i.opcode.symbol? = some c)
    (comments : Bool) (r : Reader) :
    ∃ cursor, (Symbols.chars comments i).foldlM feed r =
      (List.replicate (Symbols.count i) c).foldlM feed { r with cursor } := by
  have hnote : Source.Comment (Symbols.noteChars comments i) := by
    cases comments with
    | false => exact fun c hc => by simp [Symbols.noteChars] at hc
    | true => exact .note i.opcode i.position
  obtain ⟨cursor, hfeed⟩ := feed_comment hnote r
  refine ⟨cursor, ?_⟩
  rw [Symbols.chars_eq h, List.foldlM_append, hfeed]
  rfl

variable {i : Instruction}

theorem feed_step (outside : i.OutsideLoops) (h : i.opcode.symbol? ≠ none) (comments : Bool)
    (r : Reader) :
    ∃ r', (Symbols.chars comments i).foldlM feed r = .ok r' ∧ r'.pending = r.pending ∧
      r.Gains r' 0 (List.replicate i.value.toNat ⟨i.opcode, 1, 0, none⟩) := by
  obtain ⟨hstart, hend⟩ := outside
  obtain ⟨symbol, hsymbol⟩ := Option.ne_none_iff_exists'.1 h
  obtain ⟨cursor, hchars⟩ := feed_chars hsymbol comments r
  have hcount : Symbols.count i = i.value.toNat := by
    unfold Symbols.count
    split <;> simp_all
  obtain ⟨r', hfeed, hpending, hgains⟩ :=
    feed_replicate hsymbol hstart hend i.value.toNat { r with cursor }
  exact ⟨r', by rw [hchars, hcount, hfeed], hpending, ⟨hgains.loops, hgains.code⟩⟩

theorem feed_start (opens : i.opcode = .loopStart) (comments : Bool) (r : Reader) :
    ∃ r' position, (Symbols.chars comments i).foldlM feed r = .ok r' ∧
      r'.pending = ⟨r.loops + 1, position⟩ :: r.pending ∧
      r.Gains r' 1 [⟨.loopStart, (r.loops + 1 : Nat), 0, none⟩] := by
  obtain ⟨cursor, hchars⟩ := feed_chars (c := '[') (by rw [opens]; rfl) comments r
  have hcount : Symbols.count i = 1 := by simp [Symbols.count, opens]
  rw [hcount] at hchars
  exact ⟨_, cursor, hchars, rfl, rfl, by simp [push, Instruction.unplaced]⟩

theorem feed_end (closes : i.opcode = .loopEnd) (comments : Bool) {r : Reader}
    {loop : OpenLoop} {outer : List OpenLoop} (hpending : r.pending = loop :: outer) :
    ∃ r', (Symbols.chars comments i).foldlM feed r = .ok r' ∧ r'.pending = outer ∧
      r.Gains r' 0 [⟨.loopEnd, loop.label, 0, none⟩] := by
  obtain ⟨cursor, hchars⟩ := feed_chars (c := ']') (by rw [closes]; rfl) comments r
  have hcount : Symbols.count i = 1 := by simp [Symbols.count, closes]
  have hfeed : [']'].foldlM feed { r with cursor } =
      .ok { ({ r with cursor } : Reader).push .loopEnd loop.label with
        pending := outer, cursor := cursor.after ']' } := by
    simp [feed, accept, Opcode.ofSymbol?, hpending, push, bind, Except.bind, pure, Except.pure]
  rw [hcount] at hchars
  exact ⟨_, hchars.trans hfeed, rfl, rfl, by simp [push, Instruction.unplaced]⟩

/-- Nothing can be closed where nothing is open. -/
theorem feed_end_error (closes : i.opcode = .loopEnd) (comments : Bool) {r : Reader}
    (hpending : r.pending = []) :
    ∃ e, (Symbols.chars comments i).foldlM feed r = .error e := by
  obtain ⟨cursor, hchars⟩ := feed_chars (c := ']') (by rw [closes]; rfl) comments r
  have hcount : Symbols.count i = 1 := by simp [Symbols.count, closes]
  have hfeed : [']'].foldlM feed { r with cursor } =
      .error ⟨.unmatchedClose, cursor⟩ := by
    simp [feed, accept, Opcode.ofSymbol?, hpending, bind, Except.bind]
  rw [hcount] at hchars
  exact ⟨_, hchars.trans hfeed⟩

/-! ## 5. Reading whole streams -/

/-- The text of a tree is read as the tree spelled out, with loops numbered
from where the reader is, and leaves open what was open. -/
theorem feed_tree (comments : Bool) (t : LoopTree) (h : ∀ i ∈ t.code, i.opcode.symbol? ≠ none)
    (r : Reader) :
    ∃ r', (t.code.flatMap (Symbols.chars comments)).foldlM feed r = .ok r' ∧
      r'.pending = r.pending ∧ r.Gains r' t.loops (t.spelledOut (r.loops + 1)) := by
  induction t generalizing r with
  | done => exact ⟨r, rfl, rfl, .refl r⟩
  | step i outside rest ih =>
    obtain ⟨r₁, hstep, hpending₁, hgains₁⟩ := feed_step outside (h i (by simp)) comments r
    obtain ⟨r₂, hrest, hpending₂, hgains₂⟩ := ih (fun j hj => h j (by simp [hj])) r₁
    have hloops : r₁.loops = r.loops := hgains₁.loops
    rw [hloops] at hgains₂
    refine ⟨r₂, ?_, hpending₂.trans hpending₁,
      by simpa [LoopTree.loops, LoopTree.spelledOut] using hgains₁.trans hgains₂⟩
    rw [LoopTree.code_step, List.flatMap_cons, List.foldlM_append, hstep]
    exact hrest
  | loop start body close opens closes rest ihb ihr =>
    obtain ⟨r₁, position, hstart, hpending₁, hgains₁⟩ := feed_start opens comments r
    obtain ⟨r₂, hbody, hpending₂, hgains₂⟩ := ihb (fun j hj => h j (by simp [hj])) r₁
    obtain ⟨r₃, hend, hpending₃, hgains₃⟩ :=
      feed_end closes comments (hpending₂.trans hpending₁)
    obtain ⟨r₄, hrest, hpending₄, hgains₄⟩ := ihr (fun j hj => h j (by simp [hj])) r₃
    have hloops₁ : r₁.loops = r.loops + 1 := hgains₁.loops
    have hloops₃ : r₃.loops + 1 = r.loops + 1 + 1 + body.loops := by
      rw [hgains₃.loops, hgains₂.loops, hloops₁]
      omega
    rw [hloops₁] at hgains₂
    rw [hloops₃] at hgains₄
    refine ⟨r₄, ?_, hpending₄.trans hpending₃, ?_⟩
    · simp only [LoopTree.code_loop, List.flatMap_cons, List.flatMap_append, List.foldlM_append,
        hstart, hbody, hend, hrest, bind, Except.bind]
    · have hgains := hgains₁.trans (hgains₂.trans (hgains₃.trans hgains₄))
      refine ⟨by rw [hgains.loops, LoopTree.loops]; omega, ?_⟩
      rw [hgains.code, LoopTree.spelledOut]
      simp

/-- The reader has as many loops open as the walk over the stream. -/
theorem enterLoop_of_feed (comments : Bool) {code : List Instruction}
    (h : ∀ i ∈ code, i.opcode.symbol? ≠ none) {r r' : Reader}
    (hfeed : (code.flatMap (Symbols.chars comments)).foldlM feed r = .ok r') :
    code.foldlM Stream.enterLoop r.pending.length = some r'.pending.length := by
  induction code generalizing r with
  | nil =>
    cases hfeed
    rfl
  | cons i code ih =>
    rw [List.flatMap_cons, List.foldlM_append] at hfeed
    obtain ⟨r₁, hfirst, hrest⟩ := bind_eq_ok_iff.1 hfeed
    have hwalk := ih (fun j hj => h j (by simp [hj])) hrest
    have henter : Stream.enterLoop r.pending.length i = some r₁.pending.length := by
      by_cases hstart : i.opcode = .loopStart
      · obtain ⟨r₂, position, hfeed₂, hpending, -⟩ := feed_start hstart comments r
        cases hfirst.symm.trans hfeed₂
        rw [Stream.enterLoop_start hstart, hpending, List.length_cons]
      by_cases hend : i.opcode = .loopEnd
      · cases hpending : r.pending with
        | nil =>
          obtain ⟨e, herror⟩ := feed_end_error hend comments hpending
          cases hfirst.symm.trans herror
        | cons loop outer =>
          obtain ⟨r₂, hfeed₂, houter, -⟩ := feed_end hend comments hpending
          cases hfirst.symm.trans hfeed₂
          rw [List.length_cons, Stream.enterLoop_end hend, houter]
      · obtain ⟨r₂, hfeed₂, hpending, -⟩ := feed_step ⟨hstart, hend⟩ (h i (by simp)) comments r
        cases hfirst.symm.trans hfeed₂
        rw [Stream.enterLoop_outside ⟨hstart, hend⟩, hpending]
    rw [List.foldlM_cons, henter]
    exact hwalk

end Reader

namespace Stream

theorem parseChars_tree (comments : Bool) (t : LoopTree)
    (h : ∀ i ∈ t.code, i.opcode.symbol? ≠ none) :
    ∃ code, Source.parseChars (t.code.flatMap (Symbols.chars comments)) = .ok code ∧
      code.map Instruction.unplaced = t.spelledOut 1 := by
  obtain ⟨r, hfeed, hpending, hgains⟩ := Reader.feed_tree comments t h {}
  have hfinish : r.finish = .ok r.code.toList := by simp [Reader.finish, hpending]
  exact ⟨r.code.toList, bind_eq_ok_iff.2 ⟨r, hfeed, hfinish⟩, by simpa using hgains.code⟩

/-- A step that is counted once has a text of one character, and a row of such
steps is read from the text of the row. -/
theorem exists_text_of_units {steps : List Instruction} (h : ∀ i ∈ steps, i.IsUnit) :
    ∃ (text : String) (code : List Instruction), Source.parse text = .ok code ∧
      text.length = steps.length ∧ code.map Instruction.unplaced = steps := by
  have hsymbols : ∀ i ∈ steps, i.opcode.symbol? ≠ none := fun i hi => (h i hi).symbol
  have houtside : ∀ i ∈ steps, i.OutsideLoops := fun i hi => (h i hi).outside
  have hcode : (LoopTree.prepend steps houtside .done).code = steps := by simp
  obtain ⟨code, hparse, hplaces⟩ := parseChars_tree false (.prepend steps houtside .done)
    (hcode.symm ▸ hsymbols)
  rw [hcode] at hparse
  refine ⟨String.ofList (steps.flatMap (Symbols.chars false)), code, ?_, ?_, ?_⟩
  · rw [Source.parse, String.toList_ofList]
    exact hparse
  · have hlengths : steps.map (fun i => (Symbols.chars false i).length) =
        List.replicate steps.length 1 :=
      List.map_eq_replicate_iff.2 fun i hi => Symbols.length_chars_of_isUnit (h i hi)
    rw [String.length_ofList, List.length_flatMap, hlengths, List.sum_replicate_nat, Nat.mul_one]
  · rw [hplaces]
    exact LoopTree.spelledOut_units h houtside 1

theorem exists_tree_of_parseChars (comments : Bool) {code code' : List Instruction}
    (h : ∀ i ∈ code, i.opcode.symbol? ≠ none)
    (hparse : Source.parseChars (code.flatMap (Symbols.chars comments)) = .ok code') :
    ∃ t : LoopTree, t.code = code := by
  obtain ⟨r, hfeed, hfinish⟩ := bind_eq_ok_iff.1 hparse
  have hwalk := Reader.enterLoop_of_feed comments h hfeed
  unfold Reader.finish at hfinish
  split at hfinish
  · rename_i hpending
    rw [hpending] at hwalk
    exact loopsNested_iff.1 hwalk
  · cases hfinish

/-- **Reading undoes writing.** A stream of instructions that have symbols is
written in full, with notes or without. If its loops are properly nested the
text is read as the stream spelled out, and if they are not the text is
refused. -/
theorem parse_of_emit_symbols (options : EmitOptions) (code : List Instruction)
    (h : ∀ i ∈ code, i.opcode.symbol? ≠ none) :
    ∃ text : String,
      Stream.emit .symbols options code {} = ⟨{ written := text.toUTF8.data }, .ok []⟩ ∧
      (∀ t : LoopTree, t.code = code → ∃ code', Source.parse text = .ok code' ∧
        code'.map Instruction.unplaced = t.spelledOut 1) ∧
      ((¬ ∃ t : LoopTree, t.code = code) → ∃ e, Source.parse text = .error e) := by
  obtain ⟨houtcome, htext⟩ := emission_symbols options h
  refine ⟨(Stream.emission .symbols options code).text, ?_, ?_, ?_⟩
  · rw [Stream.emit, Emission.deliver_of_unlimited _ rfl, houtcome]
    rw [Array.empty_append]
    rfl
  · rintro t rfl
    rw [Source.parse, htext]
    exact parseChars_tree options.comments t h
  · intro hnone
    rw [Source.parse, htext]
    cases hparse : Source.parseChars (code.flatMap (Symbols.chars options.comments)) with
    | error e => exact ⟨e, rfl⟩
    | ok code' => exact absurd (exists_tree_of_parseChars options.comments h hparse) hnone

/-- Two loops in one another, with labels that do not match, a count below
zero, and notes. -/
theorem parse_of_emit_symbols_nested :
    ∃ (text : String) (code : List Instruction),
      Stream.emit .symbols { comments := true }
        [⟨.loopStart, 7, 0, some ⟨2, 11⟩⟩, ⟨.sub, 2, 0, none⟩, ⟨.loopStart, 7, 0, none⟩,
          ⟨.right, -3, 0, some ⟨1, 1⟩⟩, ⟨.loopEnd, 0, 0, none⟩, ⟨.loopEnd, 5, 0, none⟩] {} =
        ⟨{ written := text.toUTF8.data }, .ok []⟩ ∧
      Source.parse text = .ok code ∧
      code.map Instruction.unplaced =
        [⟨.loopStart, 1, 0, none⟩, ⟨.sub, 1, 0, none⟩, ⟨.sub, 1, 0, none⟩,
          ⟨.loopStart, 2, 0, none⟩, ⟨.loopEnd, 2, 0, none⟩, ⟨.loopEnd, 1, 0, none⟩] := by
  obtain ⟨text, hemit, htree, -⟩ := parse_of_emit_symbols { comments := true }
    [⟨.loopStart, 7, 0, some ⟨2, 11⟩⟩, ⟨.sub, 2, 0, none⟩, ⟨.loopStart, 7, 0, none⟩,
      ⟨.right, -3, 0, some ⟨1, 1⟩⟩, ⟨.loopEnd, 0, 0, none⟩, ⟨.loopEnd, 5, 0, none⟩] (by decide)
  obtain ⟨code, hparse, hcode⟩ := htree
    (.loop ⟨.loopStart, 7, 0, some ⟨2, 11⟩⟩
      (.step ⟨.sub, 2, 0, none⟩ ⟨by decide, by decide⟩
        (.loop ⟨.loopStart, 7, 0, none⟩
          (.step ⟨.right, -3, 0, some ⟨1, 1⟩⟩ ⟨by decide, by decide⟩ .done)
          ⟨.loopEnd, 0, 0, none⟩ rfl rfl .done))
      ⟨.loopEnd, 5, 0, none⟩ rfl rfl .done) rfl
  exact ⟨text, code, hemit, hparse, hcode⟩

end Stream

end TapeCompiler
