/-
TapeCompiler.Proofs.QbeMachine — running generated QBE code.

A `Qbe.Image` is the generated code with a place in memory for its tape,
and a `Qbe.Process` runs through its lines.

* Word temporaries have 32 bits and address temporaries 64. Arithmetic
  wraps, constants are reduced to the width of the operation, and a
  temporary may be assigned again. A division by zero gets stuck.
* A cell is stored as its low bytes, the lowest one first, and loaded with
  zeros above. A load or store that is not within the tape gets stuck.
* Labels, comments and blank lines are passed. A jump looks its label up by
  name, as text.
* `putchar` writes the low byte of a word, and `getchar` gives the next
  byte of the input, or -1 behind the last one.

`Image.reaches_straight` takes a process through code without jumps in one
go, by `Image.runAll`, which knows nothing of lines.
-/
import TapeCompiler.Code.Qbe
import Mathlib.Algebra.Group.Nat.Defs
import Mathlib.Logic.Relation

namespace TapeCompiler

namespace Qbe

/-! ## 1. Bytes in memory -/

/-- The number in `count` bytes, the lowest one first. -/
def readBytes (memory : Nat → UInt8) (address : Nat) : Nat → Nat
  | 0 => 0
  | count + 1 => (memory address).toNat + 256 * readBytes memory (address + 1) count

/-- The memory with the low `count` bytes of a number, the lowest one first. -/
def writeBytes (memory : Nat → UInt8) (address count value : Nat) : Nat → UInt8 :=
  fun place =>
    if address ≤ place ∧ place < address + count then UInt8.ofNat (value / 256 ^ (place - address))
    else memory place

/-- A number depends on its own bytes only. -/
theorem readBytes_congr {memory memory' : Nat → UInt8} {address count : Nat}
    (h : ∀ place, address ≤ place → place < address + count → memory place = memory' place) :
    readBytes memory address count = readBytes memory' address count := by
  induction count generalizing address with
  | zero => rfl
  | succ count ih =>
    rw [readBytes, readBytes, h address (Nat.le_refl _) (by omega),
      ih fun place hle hlt => h place (by omega) (by omega)]

/-- Memory that is all zero holds the number zero. -/
theorem readBytes_zero {memory : Nat → UInt8} {address count : Nat}
    (h : ∀ place, address ≤ place → place < address + count → memory place = 0) :
    readBytes memory address count = 0 := by
  induction count generalizing address with
  | zero => rfl
  | succ count ih =>
    rw [readBytes, h address (Nat.le_refl _) (by omega),
      ih fun place hle hlt => h place (by omega) (by omega)]
    rfl

/-- What was written is read back, up to what did not fit. -/
theorem readBytes_writeBytes_self (memory : Nat → UInt8) (address count value : Nat) :
    readBytes (writeBytes memory address count value) address count = value % 256 ^ count := by
  -- the induction is on the bytes still to be read, `skipped` of them being done
  have hrest (left skipped : Nat) (hsum : skipped + left = count) :
      readBytes (writeBytes memory address count value) (address + skipped) left =
        value / 256 ^ skipped % 256 ^ left := by
    induction left generalizing skipped with
    | zero => simp [readBytes, Nat.mod_one]
    | succ left ih =>
      have hbyte : (writeBytes memory address count value (address + skipped)).toNat =
          value / 256 ^ skipped % 256 := by
        have hinside : address ≤ address + skipped ∧ address + skipped < address + count := by omega
        simp [writeBytes, hinside]
      rw [readBytes, hbyte, Nat.add_assoc, ih (skipped + 1) (by omega), Nat.pow_succ 256 skipped,
        ← Nat.div_div_eq_div_mul, ← Nat.mod_mul, Nat.pow_succ, Nat.mul_comm 256]
  simpa using hrest count 0 (Nat.zero_add _)

/-- Bytes elsewhere stay. -/
theorem readBytes_writeBytes_of_disjoint {address count place count' : Nat}
    (h : place + count' ≤ address ∨ address + count ≤ place) (memory : Nat → UInt8)
    (value : Nat) :
    readBytes (writeBytes memory address count value) place count' =
      readBytes memory place count' := by
  refine readBytes_congr fun byte hle hlt => ?_
  have houtside : ¬ (address ≤ byte ∧ byte < address + count) := by omega
  rw [writeBytes, if_neg houtside]

/-! ## 2. Frames -/

/-- The temporaries, the memory and the channels of a run. -/
structure Frame where
  words : Temp → BitVec 32
  addresses : Temp → BitVec 64
  memory : Nat → UInt8
  /-- The bytes that the coming reads get. -/
  input : List UInt8
  /-- The bytes written so far. -/
  output : Array UInt8

namespace Frame

/-- The frame with a word assigned. -/
def setWord (f : Frame) (t : Temp) (value : BitVec 32) : Frame :=
  { f with words := fun t' => if t' = t then value else f.words t' }

/-- The frame with an address assigned. -/
def setAddress (f : Frame) (t : Temp) (value : BitVec 64) : Frame :=
  { f with addresses := fun t' => if t' = t then value else f.addresses t' }

/-- The value of an operand. -/
def arg (f : Frame) : Arg → BitVec 32
  | .temp t => f.words t
  | .const n => BitVec.ofInt 32 n

variable (f : Frame) (t t' : Temp)

@[simp] theorem words_setWord (value : BitVec 32) :
    (f.setWord t value).words t' = if t' = t then value else f.words t' := rfl

@[simp] theorem addresses_setWord (value : BitVec 32) :
    (f.setWord t value).addresses = f.addresses := rfl

@[simp] theorem memory_setWord (value : BitVec 32) : (f.setWord t value).memory = f.memory := rfl

@[simp] theorem input_setWord (value : BitVec 32) : (f.setWord t value).input = f.input := rfl

@[simp] theorem output_setWord (value : BitVec 32) : (f.setWord t value).output = f.output := rfl

@[simp] theorem words_setAddress (value : BitVec 64) :
    (f.setAddress t value).words = f.words := rfl

@[simp] theorem addresses_setAddress (value : BitVec 64) :
    (f.setAddress t value).addresses t' = if t' = t then value else f.addresses t' := rfl

@[simp] theorem memory_setAddress (value : BitVec 64) :
    (f.setAddress t value).memory = f.memory := rfl

@[simp] theorem input_setAddress (value : BitVec 64) :
    (f.setAddress t value).input = f.input := rfl

@[simp] theorem output_setAddress (value : BitVec 64) :
    (f.setAddress t value).output = f.output := rfl

end Frame

/-- An operation on operands of one width; a division by zero has no result. -/
def BinaryOp.apply {n : Nat} (op : BinaryOp) (x y : BitVec n) : Option (BitVec n) :=
  match op with
  | .add => some (x + y)
  | .sub => some (x - y)
  | .mul => some (x * y)
  | .udiv => if y = 0 then none else some (x / y)

/-! ## 3. Images -/

/-- Generated code for a cell width, with the address of its tape. -/
structure Image where
  lines : List Line
  width : Width
  base : Nat

/-- The bytes that a line sets aside for the tape. -/
def Line.data? : Line → Option Nat
  | .data bytes => some bytes
  | _ => none

/-- The label that a line is. -/
def Line.label? : Line → Option Label
  | .label name => some name
  | _ => none

namespace Image

/-- How many bytes the tape has. -/
def size (img : Image) : Nat := (img.lines.findSome? Line.data?).getD 0

/-- The cell at an address lies within the tape. -/
def Inside (img : Image) (address : Nat) : Prop :=
  img.base ≤ address ∧ address + img.width.bytes ≤ img.base + img.size

instance decidableInside (img : Image) (address : Nat) : Decidable (img.Inside address) :=
  inferInstanceAs (Decidable (_ ∧ _))

/-- Where a jump to a label leads: to the first label of the same name. -/
def target? (img : Image) (target : Label) : Option Nat :=
  img.lines.findIdx? (fun line => line.label?.any (fun l => l.name == target.name))

/-- What an instruction does to the frame; `none` if it gets stuck, or if it
is there to say where the run goes on. -/
def exec (img : Image) (f : Frame) : Instr → Option Frame
  | .tapeStart => some (f.setAddress .p (BitVec.ofNat 64 img.base))
  | .copy dst src => some (f.setWord dst (f.arg src))
  | .word op dst lhs rhs => (op.apply (f.words lhs) (f.arg rhs)).map (f.setWord dst)
  | .offset op dst base distance =>
    (op.apply (f.addresses base) (BitVec.ofInt 64 distance)).map (f.setAddress dst)
  | .load dst addr =>
    let address := (f.addresses addr).toNat
    if img.Inside address then
      some (f.setWord dst (BitVec.ofNat 32 (readBytes f.memory address img.width.bytes)))
    else none
  | .store src addr =>
    let address := (f.addresses addr).toNat
    if img.Inside address then
      some { f with memory := writeBytes f.memory address img.width.bytes (f.words src).toNat }
    else none
  | .extend t => some (f.setWord t (BitVec.ofNat 32 ((f.words t).toNat % img.width.modulus)))
  | .isNegative dst src => some (f.setWord dst (if (f.words src).slt 0 then 1 else 0))
  | .putchar src => some { f with output := f.output.push (UInt8.ofNat (f.words src).toNat) }
  | .getchar dst =>
    match f.input with
    | [] => some (f.setWord dst (-1))
    | byte :: rest => some (Frame.setWord { f with input := rest } dst (BitVec.ofNat 32 byte.toNat))
  | .jump _ | .branch .. | .ret => none

end Image

/-! ## 4. Processes -/

/-- A frame and the line that comes next. -/
structure Process extends Frame where
  line : Nat

namespace Image

variable {img : Image}

/-- Goes through one line; `none` at the end of the function or if stuck. -/
def step (img : Image) (q : Process) : Option Process :=
  match img.lines[q.line]? with
  | some (.instr (.jump target)) => (img.target? target).map (Process.mk q.toFrame)
  | some (.instr (.branch test nonzero zero)) =>
    (img.target? (if q.words test = 0#32 then zero else nonzero)).map (Process.mk q.toFrame)
  | some (.instr code) => (img.exec q.toFrame code).map (fun f => ⟨f, q.line + 1⟩)
  | some (.label _) | some (.comment _) | some .blank => some ⟨q.toFrame, q.line + 1⟩
  | _ => none

/-- A process comes to be another one, line by line. -/
abbrev Reaches (img : Image) : Process → Process → Prop :=
  Relation.ReflTransGen (fun q q' => img.step q = some q')

/-- The process is at the end of the function. -/
def Returns (img : Image) (q : Process) : Prop := img.lines[q.line]? = some (.instr .ret)

/-- The process starts the function: it stands at the first label, the tape
is zero, and nothing is known of the temporaries. -/
structure Starts (img : Image) (input : List UInt8) (q : Process) : Prop where
  line : img.target? .start = some q.line
  tape : ∀ place, img.base ≤ place → place < img.base + img.size → q.memory place = 0
  input : q.input = input
  output : q.output = #[]

/-! ## 5. Code in its place -/

/-- These lines stand in the image, from `line` on. -/
def At (img : Image) (line : Nat) (lines : List Line) : Prop :=
  ∃ post, img.lines.drop line = lines ++ post

/-- The first of the lines is the one that comes next. -/
theorem At.head {line : Nat} {first : Line} {lines : List Line} (h : img.At line (first :: lines)) :
    img.lines[line]? = some first := by
  obtain ⟨post, hpost⟩ := h
  have := congrArg (fun l => l[0]?) hpost
  simpa using this

theorem At.left {line : Nat} {lines lines' : List Line} (h : img.At line (lines ++ lines')) :
    img.At line lines := by
  obtain ⟨post, hpost⟩ := h
  exact ⟨lines' ++ post, by rw [hpost, List.append_assoc]⟩

/-- The lines behind some others stand as far behind them as these are long. -/
theorem At.right {line : Nat} {lines lines' : List Line} (h : img.At line (lines ++ lines')) :
    img.At (line + lines.length) lines' := by
  obtain ⟨post, hpost⟩ := h
  refine ⟨post, ?_⟩
  rw [← List.drop_drop, hpost, List.append_assoc, List.drop_left]

theorem At.tail {line : Nat} {first : Line} {lines : List Line} (h : img.At line (first :: lines)) :
    img.At (line + 1) lines := by
  have happend : img.At line ([first] ++ lines) := h
  exact happend.right

/-- Lines that do nothing are passed. -/
theorem reaches_pass {f : Frame} {line : Nat} {passed : Line} (h : img.lines[line]? = some passed)
    (hpassed : (∃ l, passed = .label l) ∨ ∃ text, passed = .comment text) :
    img.Reaches ⟨f, line⟩ ⟨f, line + 1⟩ := by
  refine .single ?_
  rcases hpassed with ⟨l, rfl⟩ | ⟨text, rfl⟩ <;> simp [step, h]

/-- A jump goes on at its label. -/
theorem reaches_jump {f : Frame} {line goal : Nat} {target : Label}
    (h : img.lines[line]? = some (.instr (.jump target))) (hgoal : img.target? target = some goal) :
    img.Reaches ⟨f, line⟩ ⟨f, goal⟩ := by
  refine .single ?_
  simp [step, h, hgoal]

/-- A branch goes on at the label that its test selects. -/
theorem reaches_branch {f : Frame} {line goal : Nat} {test : Temp} {nonzero zero : Label}
    (h : img.lines[line]? = some (.instr (.branch test nonzero zero)))
    (hgoal : img.target? (if f.words test = 0#32 then zero else nonzero) = some goal) :
    img.Reaches ⟨f, line⟩ ⟨f, goal⟩ := by
  refine .single ?_
  simp [step, h, hgoal]

/-- An instruction that has a result is followed by the next line. -/
theorem step_of_exec {f f' : Frame} {line : Nat} {i : Instr}
    (h : img.lines[line]? = some (.instr i)) (hi : img.exec f i = some f') :
    img.step ⟨f, line⟩ = some ⟨f', line + 1⟩ := by
  cases i <;> simp_all [step, exec]

/-! ## 6. Straight-line code -/

/-- What instructions in a row do to the frame. -/
def runAll (img : Image) (code : List Instr) (f : Frame) : Option Frame :=
  code.foldlM img.exec f

@[simp] theorem runAll_nil (f : Frame) : img.runAll [] f = some f := rfl

@[simp] theorem runAll_cons (i : Instr) (code : List Instr) (f : Frame) :
    img.runAll (i :: code) f = (img.exec f i).bind (img.runAll code) := rfl

/-- Runs are computed one instruction at a time with this. -/
theorem runAll_of_exec {i : Instr} {code : List Instr} {f f₁ : Frame} {r : Option Frame}
    (hi : img.exec f i = some f₁) (hrun : img.runAll code f₁ = r) :
    img.runAll (i :: code) f = r := by
  rw [runAll_cons, hi]
  exact hrun

/-- A row can be run in two parts. -/
theorem runAll_append (code code' : List Instr) (f : Frame) :
    img.runAll (code ++ code') f = (img.runAll code f).bind (img.runAll code') := by
  rw [runAll, List.foldlM_append]
  rfl

/-- **Straight-line code is gone through in one go.** -/
theorem reaches_straight {code : List Instr} {f f' : Frame} {line : Nat}
    (h : img.At line (code.map .instr)) (hrun : img.runAll code f = some f') :
    img.Reaches ⟨f, line⟩ ⟨f', line + code.length⟩ := by
  induction code generalizing f line with
  | nil =>
    cases hrun
    exact .refl
  | cons i code ih =>
    rw [runAll_cons, Option.bind_eq_some_iff] at hrun
    obtain ⟨f₁, hi, hrun⟩ := hrun
    have hnext := ih h.tail hrun
    rw [Nat.add_assoc, Nat.add_comm 1] at hnext
    exact .head (step_of_exec h.head hi) hnext

end Image

end Qbe

end TapeCompiler
