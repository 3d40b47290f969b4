/-
TapeCompiler.Proofs.ListingText — a listing says all that matters.

Two streams have the same listing exactly if they agree, instruction by
instruction, in the opcode and in the operands that the opcode has
(`Instruction.ListsAs`). Nothing is asked of the streams: their blocks may
be left open, and ends may stand where nothing was opened.

The listing is read back. `Listing.entries` cuts a text into lines, takes
the tabs off and leaves out the lines that close open blocks. The depth of a
line does not matter to it, and no instruction is written like such a
closing line, so the entries are those of the instructions
(`Listing.entries_text`). One entry tells the instruction, because a name
ends at the first blank and the first operand at the comma
(`Listing.line_eq_iff`).
-/
import TapeCompiler.Proofs.TextLines
import Mathlib.Data.List.Forall2
import Std.Data.String.ToInt

namespace TapeCompiler

open Llvm (textLines)

/-- The instructions have the same opcode and, as far as the opcode has
operands, the same operands. -/
@[mk_iff]
structure Instruction.ListsAs (i j : Instruction) : Prop where
  opcode : i.opcode = j.opcode
  value : i.opcode ∉ [.scanRight, .scanLeft, .printRun] → i.value = j.value
  offset : i.opcode ∈ [.mul, .div, .store] → i.offset = j.offset

/-! ## 1. One line -/

theorem Opcode.ofMnemonic?_mnemonic (op : Opcode) : ofMnemonic? op.mnemonic = some op := by
  cases op <;> decide

theorem Opcode.mnemonic_inj {op op' : Opcode} : op.mnemonic = op'.mnemonic ↔ op = op' := by
  refine ⟨fun h => ?_, congrArg mnemonic⟩
  have hop := ofMnemonic?_mnemonic op
  rw [h, ofMnemonic?_mnemonic, Option.some.injEq] at hop
  exact hop.symm

theorem Opcode.not_mem_mnemonic (op : Opcode) : ' ' ∉ op.mnemonic.toList := by
  cases op <;> decide

theorem Opcode.mnemonic_ne_empty (op : Opcode) : op.mnemonic ≠ "" := by
  cases op <;> decide

namespace Listing

/-- What stands behind the name of an instruction. -/
def operands (i : Instruction) : String :=
  match i.opcode with
  | .loopStart | .guard | .loopEnd | .label => " @" ++ i.value.repr
  | .mul | .div | .store => " " ++ (i.value.repr ++ (", " ++ i.offset.repr))
  | .scanRight | .scanLeft | .printRun => ""
  | _ => " " ++ i.value.repr

theorem line_eq (i : Instruction) : line i = i.opcode.mnemonic ++ operands i := by
  unfold line operands
  cases i.opcode <;> simp [toString_text, String.append_assoc]

/-- The operands are set off from the name. -/
theorem operands_head (i : Instruction) : ∀ c ∈ (operands i).toList.head?, c = ' ' := by
  unfold operands
  cases i.opcode <;> simp

/-- The name of an instruction ends at the first blank. -/
theorem takeWhile_line (i : Instruction) :
    (line i).toList.takeWhile (· != ' ') = i.opcode.mnemonic.toList := by
  have hname : ∀ c ∈ i.opcode.mnemonic.toList, (c != ' ') = true := fun c hc =>
    bne_iff_ne.2 fun heq => i.opcode.not_mem_mnemonic (heq ▸ hc)
  have hblank : (operands i).toList.takeWhile (· != ' ') = [] := by
    cases hchars : (operands i).toList with
    | nil => rfl
    | cons c rest =>
      have hc := operands_head i c (by rw [hchars]; rfl)
      simp [hc]
  rw [line_eq, String.toList_append, List.takeWhile_append_of_pos hname, hblank, List.append_nil]

/-- A numeral ends at a comma. -/
theorem pair_inj {n n' d d' : Int} :
    n.repr ++ (", " ++ d.repr) = n'.repr ++ (", " ++ d'.repr) ↔ n = n' ∧ d = d' := by
  have hcut (n d : Int) : (n.repr ++ (", " ++ d.repr)).toList =
      n.repr.toList ++ ',' :: (" " ++ d.repr).toList := by
    simp
  have hblank : ',' ∉ (" " ++ d.repr).toList := by
    simpa using not_mem_int (by decide) d
  rw [← String.toList_inj, hcut, hcut,
    List.append_cons_inj_of_notMem (not_mem_int (by decide) n) hblank]
  simp [String.toList_inj, Int.repr_inj]

theorem operands_eq_iff {i j : Instruction} (hop : i.opcode = j.opcode) :
    operands i = operands j ↔ i.ListsAs j := by
  cases hj : j.opcode <;>
    simp [operands, Instruction.listsAs_iff, hop, hj, String.append_right_inj, pair_inj,
      Int.repr_inj]

/-- **One line** tells the instruction. -/
theorem line_eq_iff {i j : Instruction} : line i = line j ↔ i.ListsAs j := by
  constructor
  · intro h
    have hop : i.opcode = j.opcode := by
      rw [← Opcode.mnemonic_inj, ← String.toList_inj, ← takeWhile_line, h, takeWhile_line]
    rw [line_eq, line_eq, hop, String.append_right_inj] at h
    exact (operands_eq_iff hop).1 h
  · intro h
    rw [line_eq, line_eq, h.opcode, (operands_eq_iff h.opcode).2 h]

/-- No instruction is written like the end of an open block. -/
theorem line_ne_closer (i : Instruction) : line i ≠ dialect.closer := by
  intro h
  have hname : i.opcode.mnemonic = Opcode.loopEnd.mnemonic := by
    rw [← String.toList_inj, ← takeWhile_line, h]
    decide
  have hop := Opcode.mnemonic_inj.1 hname
  have hcloser : dialect.closer = Opcode.loopEnd.mnemonic ++ " ??" := by decide
  rw [line_eq, hname, hcloser, String.append_right_inj, ← String.toList_inj] at h
  simp [operands, hop] at h

theorem line_ne_empty (i : Instruction) : line i ≠ "" := by
  intro h
  have hname := takeWhile_line i
  rw [h] at hname
  exact i.opcode.mnemonic_ne_empty (String.toList_inj.1 hname.symm)

/-! ## 2. The whole text -/

/-- The lines of a text without their tabs, apart from those that close an
open block, and from what follows the last line end. -/
def entries (text : String) : List String :=
  ((textLines text).map (fun line => String.ofList (unindented line))).filter
    (fun entry => entry ≠ dialect.closer ∧ entry ≠ "")

section Whole

variable {options : EmitOptions} {code : List Instruction}

theorem texts_piecesOf (indent : Indent) (code : List Instruction) :
    (dialect.plainEmitter.piecesOf indent code).map Line.text = code.map line := by
  induction code generalizing indent with
  | nil => rfl
  | cons i rest ih =>
    rw [Emitter.piecesOf, List.map_append, ih]
    rfl

theorem pieces_emission (h : options.comments = false) (code : List Instruction) :
    (emission options code).pieces.toList =
      dialect.plainEmitter.piecesOf Dialect.base code ++
        dialect.closers (code.foldl Dialect.exitIndent Dialect.base) := by
  have hplain : dialect.emitter false = dialect.plainEmitter := rfl
  have hnothing : dialect.header = [] ∧ dialect.footer = [] := ⟨rfl, rfl⟩
  have hwords : ∀ i ∈ code, dialect.statement i ≠ none := fun i _ => by simp [dialect]
  have hpieces := (Dialect.emit_eq false hwords).1
  rw [hplain, hnothing.1, hnothing.2, List.nil_append, List.append_nil] at hpieces
  rw [emission, h, hplain, hpieces]

/-- What the lines say: the instructions, and then an end for each block that
is left open. -/
theorem texts_emission (h : options.comments = false) (code : List Instruction) :
    ∃ missing, (emission options code).pieces.toList.map Line.text =
      code.map line ++ List.replicate missing dialect.closer := by
  rw [pieces_emission h, List.map_append, texts_piecesOf, Dialect.texts_closers]
  exact ⟨_, rfl⟩

theorem text_emission (options : EmitOptions) (code : List Instruction) :
    (Stream.emission .listing options code).text =
      String.join ((emission options code).pieces.toList.map Line.render) :=
  Emission.text_map ..

/-- **A listing is read back.** -/
theorem entries_text (h : options.comments = false) (code : List Instruction) :
    entries (Stream.emission .listing options code).text = code.map line := by
  have hcode : ∀ l ∈ (emission options code).pieces.toList, l.IsCode '#' := by
    rw [emission, h]
    exact legible.writes.forall_emit code
  have hline : ∀ piece ∈ (emission options code).pieces.toList.map Line.render, IsLine piece := by
    intro piece hpiece
    obtain ⟨l, hl, rfl⟩ := List.mem_map.1 hpiece
    exact (hcode l hl).isLine
  have hsays : ∀ l ∈ (emission options code).pieces.toList,
      String.ofList (unindented (withoutEnd l.render)) = l.text := fun l hl => by
    rw [(hcode l hl).unindented_withoutEnd, String.ofList_toList]
  obtain ⟨missing, htexts⟩ := texts_emission h code
  have hkeep : ∀ entry ∈ code.map line, decide (entry ≠ dialect.closer ∧ entry ≠ "") = true := by
    intro entry hentry
    obtain ⟨i, -, rfl⟩ := List.mem_map.1 hentry
    exact decide_eq_true ⟨line_ne_closer i, line_ne_empty i⟩
  have hcut : (textLines (Stream.emission .listing options code).text).map
      (fun line => String.ofList (unindented line)) =
        code.map line ++ (List.replicate missing dialect.closer ++ [""]) := by
    rw [text_emission, textLines_of_isLine hline, List.map_append, List.map_map, List.map_map,
      ← List.append_assoc, ← htexts]
    exact congrArg (· ++ [""]) (List.map_congr_left hsays)
  rw [entries, hcut, List.filter_append, List.filter_eq_self.2 hkeep]
  simp

/-! ## 3. Equal texts -/

/-- The lines are made of what a listing shows of the instructions. -/
theorem pieces_congr {a b : List Instruction} (h : List.Forall₂ Instruction.ListsAs a b)
    (indent : Indent) :
    dialect.plainEmitter.piecesOf indent a = dialect.plainEmitter.piecesOf indent b ∧
      a.foldl Dialect.exitIndent indent = b.foldl Dialect.exitIndent indent := by
  induction h generalizing indent with
  | nil => exact ⟨rfl, rfl⟩
  | @cons i j rest rest' hfirst hrest ih =>
    have hentry : Dialect.entryIndent indent i = Dialect.entryIndent indent j := by
      rw [Dialect.entryIndent, Dialect.entryIndent, hfirst.opcode]
    have hexit : Dialect.exitIndent indent i = Dialect.exitIndent indent j := by
      rw [Dialect.exitIndent, Dialect.exitIndent, hfirst.opcode]
    have hstep : dialect.plainEmitter.step indent i = dialect.plainEmitter.step indent j := by
      simp only [Dialect.plainEmitter, dialect, line_eq_iff.2 hfirst, hentry, hexit]
    have hnext : dialect.plainEmitter.next indent i = dialect.plainEmitter.next indent j := by
      rw [Emitter.next, hstep]
      rfl
    have hbehind : dialect.plainEmitter.next indent j = Dialect.exitIndent indent j := rfl
    rw [Emitter.piecesOf, Emitter.piecesOf, List.foldl_cons, List.foldl_cons, hstep, hnext, hexit,
      hbehind, (ih _).1, (ih _).2]
    exact ⟨rfl, rfl⟩

theorem map_line_eq_iff {a b : List Instruction} :
    a.map line = b.map line ↔ List.Forall₂ Instruction.ListsAs a b := by
  rw [← List.forall₂_eq_eq_eq, List.forall₂_map_left_iff, List.forall₂_map_right_iff]
  simp only [line_eq_iff]

end Whole

end Listing

/-- **A listing loses nothing** that the opcodes make use of: two streams are
listed alike exactly if they are as long as each other and agree at every
place. -/
theorem Stream.listing_eq_iff (options options' : EmitOptions) (a b : List Instruction) :
    (Stream.emission .listing { options with comments := false } a).text =
        (Stream.emission .listing { options' with comments := false } b).text ↔
      a.length = b.length ∧
        ∀ k (ha : k < a.length) (hb : k < b.length), a[k].ListsAs b[k] := by
  have hforall : (a.length = b.length ∧
      ∀ k (ha : k < a.length) (hb : k < b.length), a[k].ListsAs b[k]) ↔
      List.Forall₂ Instruction.ListsAs a b := List.forall₂_iff_get.symm
  rw [hforall]
  constructor
  · intro h
    have hentries := congrArg Listing.entries h
    rw [Listing.entries_text rfl, Listing.entries_text rfl] at hentries
    exact Listing.map_line_eq_iff.1 hentries
  · intro h
    obtain ⟨hpieces, hindent⟩ := Listing.pieces_congr h Dialect.base
    rw [Listing.text_emission, Listing.text_emission, Listing.pieces_emission rfl,
      Listing.pieces_emission rfl, hpieces, hindent]

end TapeCompiler
