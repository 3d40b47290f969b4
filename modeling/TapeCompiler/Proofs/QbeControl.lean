/-
TapeCompiler.Proofs.QbeControl — reads and brackets in generated QBE code.

Reads and brackets are the instructions whose code has labels. What such
code does is told line by line: a jump leads to where its label stands
(`Qbe.Image.Direct`), and the labels of a block stand in the code of its
two brackets.

`Qbe.Runnable.simulates_perform` is one step of a simulation: from wherever a process
can stand when an instruction comes next, it reaches a place where the
next one does, with the frame that represents the machine's new store.

* A test that fails leads the machine to the closing bracket, which tests
  again. The code of a loop jumps behind its closing jump at once, so a
  process can stand there while the machine has the bracket still to come.
* The code of a loop tests at its head only. At the closing bracket it
  jumps there and back out, where the machine goes straight on.
-/
import TapeCompiler.Proofs.Pipeline
import TapeCompiler.Proofs.QbeCells
import TapeCompiler.Proofs.QbeLayout

namespace TapeCompiler

namespace Qbe

/-! ## 1. Reads -/

/-- Every label is found where it stands. -/
def Image.Direct (img : Image) : Prop :=
  ∀ line l, img.lines[line]? = some (.label l) → img.target? l = some line

/-- A byte is no negative word, so it is told from the end of the input. -/
theorem not_slt_byte (byte : UInt8) : (BitVec.ofNat 32 byte.toNat).slt 0 = false := by
  have hlt := byte.toNat_lt
  have hmsb : (BitVec.ofNat 32 byte.toNat).msb = false := by
    rw [BitVec.msb_eq_false_iff_two_mul_lt, BitVec.toNat_ofNat]
    omega
  simp [BitVec.slt_zero_eq_msb, hmsb]

section Reads

variable {img : Image} {cells : Nat} {s s' : Store} {f : Frame} {position : Option Position}

/-- The line where a read is over. -/
def readDoneLine (w : Width) (line : Nat) : Nat :=
  line + 1 + 1 + 1 + 1 + ((putCell w .v .p).length + 1)

theorem at_readDone {line k : Nat} (hat : img.At line (readLines img.width k)) :
    img.lines[readDoneLine img.width line]? = some (.label (.readDone k)) := by
  have hdone := hat.right.head
  simp only [List.length_append, List.length_cons, List.length_nil] at hdone
  rw [← hdone, readDoneLine]
  congr 1
  omega

theorem length_readLines (w : Width) (line k : Nat) :
    line + (readLines w k).length = readDoneLine w line + 1 := by
  simp only [readLines, readDoneLine, List.length_append, List.length_cons, List.length_nil]
  omega

/-- At the end of the input, the code jumps over the store. -/
theorem reaches_readDone_of_nil (hdirect : img.Direct) {line k : Nat}
    (hat : img.At line (readLines img.width k)) (hinput : f.input = []) :
    img.Reaches ⟨f, line⟩
      ⟨(f.setWord .c (-1)).setWord .eof 1, readDoneLine img.width line⟩ := by
  have hcode := hat.left
  have hget : img.exec f (.getchar .c) = some (f.setWord .c (-1)) := by
    simp only [Image.exec, hinput]
  exact .head (Image.step_of_exec hcode.head hget)
    (.head (Image.step_of_exec hcode.tail.head rfl)
      (Image.reaches_branch hcode.tail.tail.head (hdirect _ _ (at_readDone hat))))

/-- A byte is stored in the current cell. -/
theorem reaches_readDone_of_cons (hfits : img.Fits cells) (hdirect : img.Direct)
    (h : Represents img cells s f) {line k : Nat} (hat : img.At line (readLines img.width k))
    {byte : UInt8} {rest : List UInt8} (hinput : f.input = byte :: rest)
    (hset : Store.setCell { s with input := rest.map .byte } 0
      (img.width.truncate (byte.toNat : Int)) position = .ok s') :
    ∃ f', img.Reaches ⟨f, line⟩ ⟨f', readDoneLine img.width line⟩ ∧
      Represents img cells s' f' := by
  have hcode := hat.left
  let f₁ := Frame.setWord { f with input := rest } .c (BitVec.ofNat 32 byte.toNat)
  let g := f₁.setWord .eof 0
  have hget : img.exec f (.getchar .c) = some f₁ := by simp only [Image.exec, hinput, f₁]
  have htest : img.exec f₁ (.isNegative .eof .c) = some g := by
    have hslt : (f₁.words .c).slt 0 = false := not_slt_byte byte
    rw [Image.exec, hslt]
    rfl
  have hbranch : img.Reaches ⟨g, line + 1 + 1⟩ _ :=
    Image.reaches_branch hcode.tail.tail.head (hdirect _ _ hcode.tail.tail.tail.head)
  have hg : Represents img cells { s with input := rest.map .byte } g :=
    ⟨⟨h.count, h.tape, rfl, h.output⟩, h.low, h.high, h.address, h.value⟩
  have hcopy : img.exec g (.copy .v (.temp .c)) =
      some (g.setWord .v (BitVec.ofInt 32 (byte.toNat : Int))) := by
    rw [BitVec.ofInt_natCast]
    rfl
  obtain ⟨f', hstore, hs'⟩ := (performs_own hfits hg hcopy hset).reaches hcode.tail.tail.tail.tail
  refine ⟨f', .head (Image.step_of_exec hcode.head hget)
    (.head (Image.step_of_exec hcode.tail.head htest) (hbranch.trans ?_)), hs'⟩
  exact (Image.reaches_pass hcode.tail.tail.tail.head (.inl ⟨_, rfl⟩)).trans hstore

/-- One read. -/
theorem reaches_readLines (hfits : img.Fits cells) (hdirect : img.Direct)
    (h : Represents img cells s f) {line k : Nat} (hat : img.At line (readLines img.width k))
    (hread : s.readOnce position = .ok s') :
    ∃ f', img.Reaches ⟨f, line⟩ ⟨f', line + (readLines img.width k).length⟩ ∧
      Represents img cells s' f' := by
  have hpass (f' : Frame) : img.Reaches ⟨f', readDoneLine img.width line⟩
      ⟨f', readDoneLine img.width line + 1⟩ :=
    Image.reaches_pass (at_readDone hat) (.inl ⟨_, rfl⟩)
  rw [length_readLines]
  cases hinput : f.input with
  | nil =>
    have hempty : s.input = [] := by
      rw [h.input, hinput]
      rfl
    obtain rfl : { s with input := [] } = s' := by
      simpa [Store.readOnce, hempty, Input.receive] using hread
    refine ⟨_, (reaches_readDone_of_nil hdirect hat hinput).trans (hpass _), ?_⟩
    exact ⟨⟨h.count, h.tape, by simp [hinput], h.output⟩, h.low, h.high, h.address, h.value⟩
  | cons byte rest =>
    have hbytes : s.input = .byte byte :: rest.map .byte := by
      rw [h.input, hinput]
      rfl
    have hset : Store.setCell { s with input := rest.map .byte } 0
        (img.width.truncate (byte.toNat : Int)) position = .ok s' := by
      have hlt : byte.toNat < img.width.modulus :=
        Nat.lt_of_lt_of_le byte.toNat_lt (by cases img.width <;> decide)
      rw [img.width.truncate_of_lt hlt]
      simpa [Store.readOnce, hbytes, Input.receive] using hread
    obtain ⟨f', hreach, hs'⟩ := reaches_readDone_of_cons hfits hdirect h hat hinput hset
    exact ⟨f', hreach.trans (hpass f'), hs'⟩

theorem flatMap_readLines (w : Width) (reads count : Nat) :
    (List.range (count + 1)).flatMap (fun k => readLines w (reads + k + 1)) =
      readLines w (reads + 1) ++
        (List.range count).flatMap (fun k => readLines w (reads + 1 + k + 1)) := by
  rw [List.range_succ_eq_map, List.flatMap_cons, List.flatMap_map]
  congr 1
  congr 1
  funext k
  show readLines w (reads + (k + 1) + 1) = readLines w (reads + 1 + k + 1)
  congr 1
  omega

/-- Reads in a row. -/
theorem reaches_reads (hfits : img.Fits cells) (hdirect : img.Direct)
    (h : Represents img cells s f) {line reads count : Nat}
    (hat : img.At line
      ((List.range count).flatMap (fun k => readLines img.width (reads + k + 1))))
    (hread : s.readTimes position count = .ok s') :
    ∃ f', img.Reaches ⟨f, line⟩ ⟨f', line +
        ((List.range count).flatMap (fun k => readLines img.width (reads + k + 1))).length⟩ ∧
      Represents img cells s' f' := by
  induction count generalizing s f line reads with
  | zero =>
    cases hread
    exact ⟨f, .refl, h⟩
  | succ count ih =>
    obtain ⟨s₁, hfirst, hrest⟩ := bind_eq_ok_iff.1 hread
    rw [flatMap_readLines] at hat ⊢
    obtain ⟨f₁, hreach₁, hs₁⟩ := reaches_readLines hfits hdirect h hat.left hfirst
    obtain ⟨f', hreach, hs'⟩ := ih hs₁ hat.right hrest
    rw [List.length_append, ← Nat.add_assoc]
    exact ⟨f', hreach₁.trans hreach, hs'⟩

end Reads

/-! ## 2. Brackets -/

variable {options : EmitOptions} {code : List Instruction} {base : Nat}

/-- A stream whose code runs, with its tape at an address. -/
structure Runnable (options : EmitOptions) (code : List Instruction) (base : Nat) : Prop where
  wellFormed : Stream.WellFormed code
  written : (emission options code).outcome = .ok []
  expressed : ∀ i ∈ code, Target.Expresses .qbe i
  /-- Divisors are words. -/
  divisors : ∀ i ∈ code, i.opcode = .div → 0 < i.value ∧ i.value < 2 ^ 32
  fits : (image options code base).Fits options.memorySize

namespace Runnable

variable (hrun : Runnable options code base)

include hrun

theorem direct : (image options code base).Direct :=
  fun _ _ hline => target?_of_line hrun.wellFormed hrun.written hline

variable {k : Nat} {i : Instruction} (hi : code[k]? = some i)

include hi

theorem at_loopStart (hop : i.opcode = .loopStart) :
    (image options code base).At (codeLine options code k)
      [.label (.loopHead i.value), .instr (.branch .v (.loopBody i.value) (.loopExit i.value)),
        .label (.loopBody i.value)] := by
  simpa only [step, hop, Written.ok] using at_codeLine hrun.written base hi

theorem at_loopEnd (hop : i.opcode = .loopEnd) :
    (image options code base).At (codeLine options code k)
      [.instr (.jump (.loopHead i.value)), .label (.loopExit i.value)] := by
  simpa only [step, hop, Written.ok, closeLoop] using at_codeLine hrun.written base hi

theorem at_guard (hop : i.opcode = .guard) :
    (image options code base).At (codeLine options code k)
      [.instr (.branch .v (.guardBody i.value) (.guardEnd i.value)),
        .label (.guardBody i.value)] := by
  simpa only [step, hop, Written.ok] using at_codeLine hrun.written base hi

theorem at_label (hop : i.opcode = .label) :
    (image options code base).At (codeLine options code k) [.label (.guardEnd i.value)] := by
  simpa only [step, hop, Written.ok] using at_codeLine hrun.written base hi

omit hi

variable {start close : Instruction} {stop : Nat} (hstart : code[k]? = some start)
  (hstop : code[stop]? = some close)

include hstop in
/-- Behind its jump, the end of a loop is passed. -/
theorem reaches_exit (hc : close.opcode = .loopEnd) (f : Frame) :
    (image options code base).Reaches ⟨f, codeLine options code stop + 1⟩
      ⟨f, lineOf options code (stop + 1)⟩ := by
  have hnext : lineOf options code (stop + 1) = codeLine options code stop + 1 + 1 := by
    rw [lineOf_succ hstop]
    simp only [step, hc, Written.ok, closeLoop, List.length_cons, List.length_nil]
  rw [hnext]
  exact Image.reaches_pass (hrun.at_loopEnd hstop hc).tail.head (.inl ⟨_, rfl⟩)

include hstop in
/-- The end of a guarded block is passed. -/
theorem reaches_label (hc : close.opcode = .label) (f : Frame) :
    (image options code base).Reaches ⟨f, codeLine options code stop⟩
      ⟨f, lineOf options code (stop + 1)⟩ := by
  have hnext : lineOf options code (stop + 1) = codeLine options code stop + 1 := by
    rw [lineOf_succ hstop]
    simp only [step, hc, Written.ok, List.length_cons, List.length_nil]
  rw [hnext]
  exact Image.reaches_pass (hrun.at_label hstop hc).head (.inl ⟨_, rfl⟩)

include hstart hstop

/-- The test of a loop leads into the body, or behind the jump at its end. -/
theorem reaches_loopStart (hs : start.opcode = .loopStart) (hc : close.opcode = .loopEnd)
    (hvalue : start.value = close.value) (f : Frame) :
    (image options code base).Reaches ⟨f, codeLine options code k⟩
      ⟨f, if f.words .v = 0#32 then codeLine options code stop + 1
        else lineOf options code (k + 1)⟩ := by
  have hhead := hrun.at_loopStart hstart hs
  have hexit := hrun.at_loopEnd hstop hc
  rw [← hvalue] at hexit
  refine (Image.reaches_pass hhead.head (.inl ⟨_, rfl⟩)).trans ?_
  split
  · rename_i hzero
    refine Image.reaches_branch hhead.tail.head ?_
    rw [if_pos hzero]
    exact hrun.direct _ _ hexit.tail.head
  · rename_i hnonzero
    have hbody := hhead.tail.tail.head
    rw [lineOf_succ hstart]
    simp only [step, hs, Written.ok, List.length_cons, List.length_nil]
    refine (Image.reaches_branch hhead.tail.head ?_).trans
      (Image.reaches_pass hbody (.inl ⟨_, rfl⟩))
    rw [if_neg hnonzero]
    exact hrun.direct _ _ hbody

/-- At the end of a loop, the code jumps to the test. -/
theorem reaches_loopEnd (hs : start.opcode = .loopStart) (hc : close.opcode = .loopEnd)
    (hvalue : start.value = close.value) (f : Frame) :
    (image options code base).Reaches ⟨f, codeLine options code stop⟩
      ⟨f, if f.words .v = 0#32 then lineOf options code (stop + 1)
        else codeLine options code k⟩ := by
  have hjump := (hrun.at_loopEnd hstop hc).head
  rw [← hvalue] at hjump
  have hback := Image.reaches_jump (f := f) hjump
    (hrun.direct _ _ (hrun.at_loopStart hstart hs).head)
  split
  · rename_i hzero
    have htest := hrun.reaches_loopStart hstart hstop hs hc hvalue f
    rw [if_pos hzero] at htest
    exact (hback.trans htest).trans (hrun.reaches_exit hstop hc f)
  · exact hback

/-- The test of a guarded block leads into it, or to its end. -/
theorem reaches_guard (hs : start.opcode = .guard) (hc : close.opcode = .label)
    (hvalue : start.value = close.value) (f : Frame) :
    (image options code base).Reaches ⟨f, codeLine options code k⟩
      ⟨f, if f.words .v = 0#32 then codeLine options code stop
        else lineOf options code (k + 1)⟩ := by
  have hguard := hrun.at_guard hstart hs
  have hend := hrun.at_label hstop hc
  rw [← hvalue] at hend
  split
  · rename_i hzero
    refine Image.reaches_branch hguard.head ?_
    rw [if_pos hzero]
    exact hrun.direct _ _ hend.head
  · rename_i hnonzero
    have hbody := hguard.tail.head
    rw [lineOf_succ hstart]
    simp only [step, hs, Written.ok, List.length_cons, List.length_nil]
    refine (Image.reaches_branch hguard.head ?_).trans (Image.reaches_pass hbody (.inl ⟨_, rfl⟩))
    rw [if_neg hnonzero]
    exact hrun.direct _ _ hbody

omit hstart hstop

/-- The code of an instruction that is no bracket is gone through. -/
theorem reaches_plain {s s' : Store} {f : Frame} (hi : code[k]? = some i) (plain : i.Plain)
    (h : Represents (image options code base) options.memorySize s f)
    (he : i.effect options.width s = .ok s') (hlow : 0 ≤ s'.pointer)
    (hhigh : s'.pointer < options.memorySize) :
    ∃ f', (image options code base).Reaches ⟨f, codeLine options code k⟩
        ⟨f', lineOf options code (k + 1)⟩ ∧
      Represents (image options code base) options.memorySize s' f' := by
  have hat := at_codeLine hrun.written base hi
  rw [lineOf_succ hi]
  by_cases hop : i.opcode = .read
  · obtain ⟨after, hafter⟩ := exists_result hrun.written hi
    rw [pieces_of_read hop hafter] at hat ⊢
    simp only [Instruction.effect, hop] at he
    exact reaches_reads hrun.fits hrun.direct h hat he
  · have hmem := List.mem_of_getElem? hi
    exact (performs_of_effect hrun.fits h plain hop (hrun.expressed i hmem) (hrun.divisors i hmem)
      he hlow hhigh _).reaches hat

end Runnable

/-! ## 3. One step -/

/-- The lines at which a process can stand when the `k`-th instruction comes
next. -/
inductive Awaits (options : EmitOptions) (code : List Instruction) (k : Nat) (f : Frame) :
    Nat → Prop where
  | first : Awaits options code k f (lineOf options code k)
  /-- Jumps lead behind the comment. -/
  | label {i : Instruction} (hi : code[k]? = some i) :
      Awaits options code k f (codeLine options code k)
  /-- The test at the head of a loop failed, and its end is still to come. -/
  | exit {i : Instruction} (hi : code[k]? = some i) (ends : i.opcode = .loopEnd)
      (zero : f.words .v = 0#32) : Awaits options code k f (codeLine options code k + 1)

/-- The process is as far as the machine. -/
structure Stands (options : EmitOptions) (code : List Instruction) (base : Nat) (m : Machine)
    (q : Process) : Prop where
  represents : Represents (image options code base) options.memorySize m.toStore q.toFrame
  awaits : Awaits options code m.counter q.toFrame q.line

namespace Runnable

variable (hrun : Runnable options code base) {k : Nat} {i : Instruction} {f : Frame} {line : Nat}

include hrun

theorem reaches_of_awaits (hi : code[k]? = some i) (hop : i.opcode ≠ .loopEnd)
    (h : Awaits options code k f line) :
    (image options code base).Reaches ⟨f, line⟩ ⟨f, codeLine options code k⟩ := by
  cases h with
  | first => exact reaches_codeLine hrun.written base hi f
  | label => exact .refl
  | exit hi' ends =>
    rw [hi] at hi'
    cases hi'
    exact absurd ends hop

/-- One instruction that is no bracket. -/
theorem simulates_plain {p : Program} (hwidth : p.width = options.width) {s : Store} {steps : Nat}
    {m' : Machine} (hi : code[k]? = some i) (plain : i.Plain)
    (hperform : p.perform i ⟨s, steps, k⟩ = .ok m') (hlow : 0 ≤ m'.pointer)
    (hhigh : m'.pointer < options.memorySize)
    (h : Stands options code base ⟨s, steps, k⟩ ⟨f, line⟩) :
    ∃ q', (image options code base).Reaches ⟨f, line⟩ q' ∧ Stands options code base m' q' := by
  rw [Program.perform_plain plain, hwidth] at hperform
  cases heffect : i.effect options.width s with
  | error c =>
    rw [heffect] at hperform
    cases hperform
  | ok s' =>
    rw [heffect] at hperform
    cases hperform
    have hop : i.opcode ≠ .loopEnd := by
      intro hop
      simp [Instruction.Plain, hop, Opcode.closesBlock] at plain
    obtain ⟨f', hreach, hs'⟩ := hrun.reaches_plain hi plain h.represents heffect hlow hhigh
    exact ⟨_, (hrun.reaches_of_awaits hi hop h.awaits).trans hreach, hs', .first⟩

/-- An opening bracket. -/
theorem simulates_start {p : Program} (hjumps : p.jumps = (JumpTable.ofStream code).1) {s : Store}
    {steps : Nat} {m' : Machine} (hi : code[k]? = some i) (hopen : i.opcode.opensBlock = true)
    (hperform : p.perform i ⟨s, steps, k⟩ = .ok m')
    (h : Stands options code base ⟨s, steps, k⟩ ⟨f, line⟩) :
    ∃ q', (image options code base).Reaches ⟨f, line⟩ q' ∧ Stands options code base m' q' := by
  obtain ⟨stop, close, -, hstop, closes, hleads, -⟩ := hrun.wellFormed.connected.leads k i hi hopen
  rw [← hjumps] at hleads
  rw [Program.perform_start closes (h.represents.cell_eq hrun.fits _) hleads] at hperform
  have hop : i.opcode ≠ .loopEnd := by
    intro hop
    simp [hop, Opcode.opensBlock] at hopen
  have hcode := hrun.reaches_of_awaits hi hop h.awaits
  have htest := h.represents.words_eq_zero_iff
  by_cases hzero : f.words .v = 0#32
  · rw [if_pos (htest.1 hzero)] at hperform
    cases hperform
    rcases closes.kinds with ⟨hs, hc⟩ | ⟨hs, hc⟩
    · have hreach := hrun.reaches_loopStart hi hstop hs hc closes.2 f
      rw [if_pos hzero] at hreach
      exact ⟨_, hcode.trans hreach, h.represents, .exit hstop hc hzero⟩
    · have hreach := hrun.reaches_guard hi hstop hs hc closes.2 f
      rw [if_pos hzero] at hreach
      exact ⟨_, hcode.trans hreach, h.represents, .label hstop⟩
  · rw [if_neg (mt htest.2 hzero)] at hperform
    cases hperform
    refine ⟨⟨f, lineOf options code (k + 1)⟩, hcode.trans ?_, h.represents, .first⟩
    rcases closes.kinds with ⟨hs, hc⟩ | ⟨hs, hc⟩
    · have hreach := hrun.reaches_loopStart hi hstop hs hc closes.2 f
      rwa [if_neg hzero] at hreach
    · have hreach := hrun.reaches_guard hi hstop hs hc closes.2 f
      rwa [if_neg hzero] at hreach

/-- The end of a loop. -/
theorem simulates_loopEnd {p : Program} (hjumps : p.jumps = (JumpTable.ofStream code).1)
    {s : Store} {steps : Nat} {m' : Machine} (hi : code[k]? = some i) (hc : i.opcode = .loopEnd)
    (hperform : p.perform i ⟨s, steps, k⟩ = .ok m')
    (h : Stands options code base ⟨s, steps, k⟩ ⟨f, line⟩) :
    ∃ q', (image options code base).Reaches ⟨f, line⟩ q' ∧ Stands options code base m' q' := by
  obtain ⟨first, start, hstart, closes, hback⟩ :=
    hrun.wellFormed.leads_back (List.mem_of_getElem? hi) hc
  have hs : start.opcode = .loopStart := by
    rcases closes.kinds with ⟨hs, -⟩ | ⟨-, hlabel⟩
    · exact hs
    · simp [hc] at hlabel
  rw [← hjumps] at hback
  rw [Program.perform_loopEnd hc (h.represents.cell_eq hrun.fits _) hback] at hperform
  have htest := h.represents.words_eq_zero_iff
  have hjump := hrun.reaches_loopEnd hstart hi hs hc closes.2 f
  by_cases hzero : f.words .v = 0#32
  · rw [if_pos (htest.1 hzero)] at hperform
    cases hperform
    rw [if_pos hzero] at hjump
    refine ⟨⟨f, lineOf options code (k + 1)⟩, ?_, h.represents, .first⟩
    cases h.awaits with
    | first => exact (reaches_codeLine hrun.written base hi f).trans hjump
    | label => exact hjump
    | exit => exact hrun.reaches_exit hi hc f
  · rw [if_neg (mt htest.2 hzero)] at hperform
    cases hperform
    rw [if_neg hzero] at hjump
    refine ⟨⟨f, codeLine options code first⟩, ?_, h.represents, .label hstart⟩
    cases h.awaits with
    | first => exact (reaches_codeLine hrun.written base hi f).trans hjump
    | label => exact hjump
    | exit _ _ zero => exact absurd zero hzero

/-- **One step of the machine**, as long as the pointer stays on the tape. -/
theorem simulates_perform {p : Program} (hjumps : p.jumps = (JumpTable.ofStream code).1)
    (hwidth : p.width = options.width) {m m' : Machine} {q : Process}
    (hi : code[m.counter]? = some i) (hperform : p.perform i m = .ok m') (hlow : 0 ≤ m'.pointer)
    (hhigh : m'.pointer < options.memorySize) (h : Stands options code base m q) :
    ∃ q', (image options code base).Reaches q q' ∧ Stands options code base m' q' := by
  obtain ⟨s, steps, k⟩ := m
  obtain ⟨f, line⟩ := q
  cases hopen : i.opcode.opensBlock with
  | true => exact hrun.simulates_start hjumps hi hopen hperform h
  | false =>
    cases hclose : i.opcode.closesBlock with
    | false => exact hrun.simulates_plain hwidth hi ⟨hopen, hclose⟩ hperform hlow hhigh h
    | true =>
      by_cases hend : i.opcode = .loopEnd
      · exact hrun.simulates_loopEnd hjumps hi hend hperform h
      have hlabel : i.opcode = .label := by
        cases hop : i.opcode <;> simp [hop, Opcode.closesBlock] at hclose hend ⊢
      rw [Program.perform_label hlabel] at hperform
      cases hperform
      exact ⟨_, (hrun.reaches_of_awaits hi hend h.awaits).trans (hrun.reaches_label hi hlabel f),
        h.represents, .first⟩

end Runnable

end Qbe

end TapeCompiler
