/-
TapeCompiler.Proofs.QbeCells — cells and counts in generated QBE code.

A frame represents a store (`Qbe.Represents`) if its memory holds the cells
one after the other, `%p` the address of the current cell and `%v` its
value. The value is kept up to date instead of being loaded again, so each
piece of code has to leave the right value behind, brought into cell range.

`Qbe.performs_of_effect` says that the code of an instruction that neither
reads nor branches does to the frame what the instruction does to the
store.

* Words are counts modulo `2 ^ 32`. Cells count modulo a divisor of that,
  so a cell only has to be truncated where it is stored
  (`Width.toNat_ofInt_mod`).
* Addresses are counts modulo `2 ^ 64`, just like the pointer of a store,
  so they stay in step even where the pointer wraps
  (`Qbe.Represents.address_add`).
-/
import TapeCompiler.Backend.Qbe
import TapeCompiler.Proofs.Deposits
import TapeCompiler.Proofs.EmitTotal
import TapeCompiler.Proofs.QbeMachine
import Mathlib.Data.Int.ModEq

namespace TapeCompiler

/-! ## 1. Words and addresses -/

theorem Width.pow_bytes (w : Width) : 256 ^ w.bytes = w.modulus := by
  cases w <;> rfl

theorem Width.bytes_pos (w : Width) : 0 < w.bytes := by
  cases w <;> decide

theorem Width.modulus_dvd (w : Width) : (w.modulus : Int) ∣ ((2 ^ 32 : Nat) : Int) := by
  cases w <;> decide

/-- The low part of a word is a truncated count. -/
theorem Width.toNat_ofInt_mod (w : Width) (x : Int) :
    (BitVec.ofInt 32 x).toNat % w.modulus = w.truncate x := by
  have hcast : (((BitVec.ofInt 32 x).toNat % w.modulus : Nat) : Int) = w.truncate x := by
    rw [w.cast_truncate, Int.natCast_emod, BitVec.toNat_ofInt,
      Int.toNat_of_nonneg (Int.emod_nonneg _ (by decide)), Int.emod_emod_of_dvd _ w.modulus_dvd]
  exact_mod_cast hcast

namespace Qbe

theorem ofInt_sub {n : Nat} (x y : Int) :
    BitVec.ofInt n (x - y) = BitVec.ofInt n x - BitVec.ofInt n y := by
  rw [Int.sub_eq_add_neg, BitVec.ofInt_add, BitVec.ofInt_neg, BitVec.sub_eq_add_neg]

theorem ofInt_congr {n : Nat} {x y : Int} (h : x ≡ y [ZMOD ((2 ^ n : Nat) : Int)]) :
    BitVec.ofInt n x = BitVec.ofInt n y := by
  apply BitVec.eq_of_toNat_eq
  rw [BitVec.toNat_ofInt, BitVec.toNat_ofInt, h]

theorem readBytes_lt (memory : Nat → UInt8) (address count : Nat) :
    readBytes memory address count < 256 ^ count := by
  induction count generalizing address with
  | zero => exact Nat.one_pos
  | succ count ih =>
    have hbyte := (memory address).toNat_lt
    have hrest := ih (address + 1)
    rw [readBytes, Nat.pow_succ]
    omega

/-! ## 2. Frames that represent stores -/

namespace Image

/-- The address of a cell. -/
def place (img : Image) (index : Nat) : Nat := img.base + index * img.width.bytes

/-- The tape of the image has room for so many cells, and their addresses do
not wrap. -/
structure Fits (img : Image) (cells : Nat) : Prop where
  size : img.size = cells * img.width.bytes
  placed : img.base + cells * img.width.bytes ≤ 2 ^ 64
  few : cells < 2 ^ 60

variable {img : Image} {cells index : Nat}

theorem place_add_le (img : Image) (hindex : index < cells) :
    img.place index + img.width.bytes ≤ img.base + cells * img.width.bytes := by
  have hle := Nat.mul_le_mul_right img.width.bytes (Nat.succ_le_of_lt hindex)
  rw [Nat.succ_mul] at hle
  unfold place
  omega

theorem Fits.toNat_place (h : img.Fits cells) (hindex : index < cells) :
    (BitVec.ofNat 64 (img.place index)).toNat = img.place index := by
  have hle := img.place_add_le hindex
  have hplaced := h.placed
  have hpos := img.width.bytes_pos
  rw [BitVec.toNat_ofNat]
  exact Nat.mod_eq_of_lt (by omega)

theorem Fits.inside (h : img.Fits cells) (hindex : index < cells) :
    img.Inside (img.place index) := by
  refine ⟨Nat.le_add_right _ _, ?_⟩
  rw [h.size]
  exact img.place_add_le hindex

/-- Different cells do not overlap. -/
theorem place_apart (img : Image) {index other : Nat} (h : index ≠ other) :
    img.place other + img.width.bytes ≤ img.place index ∨
      img.place index + img.width.bytes ≤ img.place other := by
  unfold place
  rcases Nat.lt_or_gt_of_ne h with hlt | hlt
  · have hle := Nat.mul_le_mul_right img.width.bytes (Nat.succ_le_of_lt hlt)
    rw [Nat.succ_mul] at hle
    omega
  · have hle := Nat.mul_le_mul_right img.width.bytes (Nat.succ_le_of_lt hlt)
    rw [Nat.succ_mul] at hle
    omega

end Image

/-- Memory and channels of the frame are those of the store. -/
structure Shows (img : Image) (cells : Nat) (s : Store) (f : Frame) : Prop where
  count : s.tape.size = cells
  tape : ∀ index < cells,
    readBytes f.memory (img.place index) img.width.bytes = s.tape.getD index 0
  input : s.input = f.input.map Reading.byte
  output : s.sink.written = f.output

/-- The frame is that of the store, with the pointer on the tape. -/
structure Represents (img : Image) (cells : Nat) (s : Store) (f : Frame) : Prop
    extends Shows img cells s f where
  low : 0 ≤ s.pointer
  high : s.pointer < cells
  address : f.addresses .p = BitVec.ofNat 64 (img.place s.pointer.toNat)
  value : f.words .v = BitVec.ofNat 32 (s.tape.getD s.pointer.toNat 0)

variable {img : Image} {cells : Nat} {s : Store} {f : Frame}

namespace Shows

/-- The temporaries do not matter to memory and channels. -/
theorem congr {f' : Frame} (h : Shows img cells s f) (hmemory : f'.memory = f.memory)
    (hinput : f'.input = f.input) (houtput : f'.output = f.output) : Shows img cells s f' :=
  ⟨h.count, by rw [hmemory]; exact h.tape, by rw [hinput]; exact h.input,
    by rw [houtput]; exact h.output⟩

theorem getD_lt (h : Shows img cells s f) (index : Nat) :
    s.tape.getD index 0 < img.width.modulus := by
  rcases Nat.lt_or_ge index cells with hlt | hge
  · rw [← h.tape index hlt, ← img.width.pow_bytes]
    exact readBytes_lt ..
  · rw [Array.getD, dif_neg (by rw [h.count]; omega)]
    exact img.width.modulus_pos

/-- A cell fits into a word. -/
theorem getD_lt_word (h : Shows img cells s f) (index : Nat) : s.tape.getD index 0 < 2 ^ 32 :=
  Nat.lt_of_lt_of_le (h.getD_lt index) (by cases img.width <;> decide)

/-- Storing a word sets a cell to its low part. -/
theorem store (h : Shows img cells s f) {index : Nat} (hindex : index < cells) (value : Nat) :
    Shows img cells
      { s with tape := s.tape.setIfInBounds index (value % img.width.modulus) }
      { f with memory := writeBytes f.memory (img.place index) img.width.bytes value } := by
  refine ⟨by simpa using h.count, fun other hother => ?_, h.input, h.output⟩
  by_cases hsame : index = other
  · subst hsame
    rw [Store.getD_setIfInBounds_self (by rw [h.count]; exact hindex), ← img.width.pow_bytes]
    exact readBytes_writeBytes_self ..
  · rw [Store.getD_setIfInBounds_ne hsame, ← h.tape other hother]
    exact readBytes_writeBytes_of_disjoint (img.place_apart hsame) ..

end Shows

namespace Represents

theorem pointer_lt (h : Represents img cells s f) : s.pointer.toNat < cells := by
  have hlow := h.low
  have hhigh := h.high
  omega

theorem address_zero (hfits : img.Fits cells) (h : Represents img cells s f) :
    s.address 0 = s.pointer := by
  have hlow := h.low
  have hhigh := h.high
  have hfew := hfits.few
  rw [Store.address, Int.add_zero]
  refine Operand.wrap_of_inRange ⟨?_, ?_⟩ <;> simp only [Operand.least, Operand.greatest] <;> omega

theorem cell_eq (hfits : img.Fits cells) (h : Represents img cells s f)
    (position : Option Position) : s.cell 0 position = .ok (s.tape.getD s.pointer.toNat 0) := by
  rw [Store.cell_eq_ok_iff, h.address_zero hfits]
  exact ⟨⟨h.low, by rw [h.count]; exact h.pointer_lt⟩, rfl⟩

/-- A test of `%v` is a test of the current cell. -/
theorem words_eq_zero_iff (h : Represents img cells s f) :
    f.words .v = 0#32 ↔ s.tape.getD s.pointer.toNat 0 = 0 := by
  rw [h.value, ← BitVec.toNat_inj, BitVec.toNat_ofNat, BitVec.toNat_ofNat,
    Nat.mod_eq_of_lt (h.getD_lt_word _), Nat.zero_mod]

/-- A distance in bytes leads from the current cell to the cell at that
distance, modulo `2 ^ 64` as the pointer does. -/
theorem address_add (h : Represents img cells s f) {distance : Int}
    (hon : 0 ≤ s.address distance) :
    f.addresses .p + BitVec.ofInt 64 (distance * img.width.bytes) =
      BitVec.ofNat 64 (img.place (s.address distance).toNat) := by
  rw [h.address, ← BitVec.ofInt_natCast, ← BitVec.ofInt_natCast, ← BitVec.ofInt_add]
  apply ofInt_congr
  have hpointer : (s.pointer.toNat : Int) = s.pointer := Int.toNat_of_nonneg h.low
  have htarget : ((s.address distance).toNat : Int) = s.address distance := Int.toNat_of_nonneg hon
  have hwrap : s.address distance ≡ s.pointer + distance [ZMOD ((2 ^ 64 : Nat) : Int)] :=
    Int.bmod_emod
  have hscaled := ((hwrap.mul_right img.width.bytes).add_left img.base).symm
  simp only [Image.place, Int.natCast_add, Int.natCast_mul, hpointer, htarget]
  rwa [Int.add_mul, ← Int.add_assoc] at hscaled

end Represents

/-- A frame that represents a tape of zeros, with the pointer on the first
cell. -/
theorem Represents.of_blank (hfits : img.Fits cells) (hcells : 0 < cells)
    (htape : s.tape = Array.replicate cells 0) (hpointer : s.pointer = 0)
    (hmemory : ∀ place, img.base ≤ place → place < img.base + img.size → f.memory place = 0)
    (hinput : s.input = f.input.map .byte) (houtput : s.sink.written = f.output)
    (haddress : f.addresses .p = BitVec.ofNat 64 img.base) (hvalue : f.words .v = 0#32) :
    Represents img cells s f := by
  refine ⟨⟨by simp [htape], fun index hindex => ?_, hinput, houtput⟩, by omega, by omega, ?_, ?_⟩
  · have hinside := hfits.inside hindex
    have hzero : readBytes f.memory (img.place index) img.width.bytes = 0 := by
      refine readBytes_zero fun place hle hlt => hmemory place ?_ ?_
      · exact Nat.le_trans hinside.1 hle
      · exact Nat.lt_of_lt_of_le hlt hinside.2
    rw [hzero, htape]
    simp [Array.getD, hindex]
  · simp [haddress, hpointer, Image.place]
  · simp [hvalue, hpointer, htape, Array.getD, hcells]

/-! ## 3. Loads and stores -/

/-- The instructions that store a temporary and bring it into cell range. -/
def storeCode (w : Width) (value addr : Temp) : List Instr :=
  if w = .bits32 then [.store value addr] else [.store value addr, .extend value]

theorem putCell_eq_map (w : Width) (value addr : Temp) :
    putCell w value addr = (storeCode w value addr).map .instr := by
  unfold putCell storeCode
  split <;> rfl

section Cells

variable {index : Nat} {value addr : Temp}

theorem Shows.exec_load (h : Shows img cells s f) (hfits : img.Fits cells) (hindex : index < cells)
    (dst addr : Temp) (haddress : f.addresses addr = BitVec.ofNat 64 (img.place index)) :
    img.exec f (.load dst addr) =
      some (f.setWord dst (BitVec.ofNat 32 (s.tape.getD index 0))) := by
  simp only [Image.exec, haddress, hfits.toNat_place hindex, hfits.inside hindex, if_true,
    h.tape index hindex]

theorem exec_store (hfits : img.Fits cells) (hindex : index < cells)
    (haddress : f.addresses addr = BitVec.ofNat 64 (img.place index)) :
    img.exec f (.store value addr) = some { f with
      memory := writeBytes f.memory (img.place index) img.width.bytes (f.words value).toNat } := by
  simp only [Image.exec, haddress, hfits.toNat_place hindex, hfits.inside hindex, if_true]

/-- After a store the temporary holds what the cell does. -/
theorem runAll_storeCode (value addr : Temp) (hfits : img.Fits cells) (hindex : index < cells)
    (haddress : f.addresses addr = BitVec.ofNat 64 (img.place index)) :
    img.runAll (storeCode img.width value addr) f =
      some (Frame.setWord { f with
        memory := writeBytes f.memory (img.place index) img.width.bytes (f.words value).toNat }
        value (BitVec.ofNat 32 ((f.words value).toNat % img.width.modulus))) := by
  unfold storeCode
  split
  · -- a word is in range already, so nothing is left to do
    rename_i hwidth
    have hword : BitVec.ofNat 32 ((f.words value).toNat % img.width.modulus) = f.words value := by
      rw [hwidth]
      apply BitVec.eq_of_toNat_eq
      have hlt := (f.words value).isLt
      simp only [Width.modulus, BitVec.toNat_ofNat]
      omega
    have hsame : (fun t => if t = value then f.words value else f.words t) = f.words := by
      funext t
      split
      · subst t
        rfl
      · rfl
    simp only [Image.runAll_cons, exec_store hfits hindex haddress, Option.bind_some,
      Image.runAll_nil, hword, Frame.setWord, hsame]
  · rw [Image.runAll_cons, exec_store hfits hindex haddress]
    rfl

end Cells

/-! ## 4. The current cell -/

namespace Represents

variable {s' : Store} {position : Option Position}

/-- What it means to have set the current cell. -/
theorem eq_of_setCell (hfits : img.Fits cells) (h : Represents img cells s f) {value : Nat}
    (hset : s.setCell 0 value position = .ok s') :
    { s with tape := s.tape.setIfInBounds s.pointer.toNat value } = s' := by
  obtain ⟨-, hs'⟩ := Store.setCell_eq_ok_iff.1 hset
  rwa [h.address_zero hfits] at hs'

/-- **A word in `%v` is stored as the current cell**, and comes into range. -/
theorem runs_own (hfits : img.Fits cells) (h : Represents img cells s f) {x : Int}
    (hset : s.setCell 0 (img.width.truncate x) position = .ok s') :
    ∃ f', img.runAll (storeCode img.width .v .p) (f.setWord .v (BitVec.ofInt 32 x)) = some f' ∧
      Represents img cells s' f' := by
  have hcode := runAll_storeCode (f := f.setWord .v (BitVec.ofInt 32 x)) .v .p hfits h.pointer_lt
    h.address
  refine ⟨_, hcode, ?_⟩
  obtain rfl := h.eq_of_setCell hfits hset
  have hshows := h.toShows.store h.pointer_lt (BitVec.ofInt 32 x).toNat
  rw [img.width.toNat_ofInt_mod] at hshows
  refine ⟨hshows.congr (by simp) rfl rfl, h.low, h.high, by simpa using h.address, ?_⟩
  have hsize : s.pointer.toNat < s.tape.size := by
    rw [h.count]
    exact h.pointer_lt
  simp only [Frame.words_setWord, if_true, img.width.toNat_ofInt_mod,
    Store.getD_setIfInBounds_self hsize]

end Represents

/-! ## 5. Instructions -/

/-- These lines are straight-line code, and what they make of the frame
represents the store. -/
def Performs (img : Image) (cells : Nat) (lines : List Line) (f : Frame) (s : Store) : Prop :=
  ∃ code f', lines = code.map .instr ∧ img.runAll code f = some f' ∧ Represents img cells s f'

theorem Performs.reaches {lines : List Line} (h : Performs img cells lines f s) {line : Nat}
    (hat : img.At line lines) :
    ∃ f', img.Reaches ⟨f, line⟩ ⟨f', line + lines.length⟩ ∧ Represents img cells s f' := by
  obtain ⟨code, f', rfl, hrun, hs⟩ := h
  rw [List.length_map]
  exact ⟨f', Image.reaches_straight hat hrun, hs⟩

section Instructions

variable {i : Instruction} {s' : Store} {position : Option Position}

/-- An instruction that computes `%v`, and a store of it. -/
theorem performs_own (hfits : img.Fits cells) (h : Represents img cells s f) {code : Instr}
    {x : Int}
    (hcode : img.exec f code = some (f.setWord .v (BitVec.ofInt 32 x)))
    (hset : s.setCell 0 (img.width.truncate x) position = .ok s') :
    Performs img cells (.instr code :: putCell img.width .v .p) f s' := by
  obtain ⟨f', hf', hs'⟩ := h.runs_own hfits hset
  refine ⟨code :: storeCode img.width .v .p, f', ?_, Image.runAll_of_exec hcode hf', hs'⟩
  rw [putCell_eq_map, List.map_cons]

theorem words_eq_ofInt (h : Represents img cells s f) :
    f.words .v = BitVec.ofInt 32 (s.tape.getD s.pointer.toNat 0 : Nat) := by
  rw [h.value, BitVec.ofInt_natCast]

theorem performs_add (hfits : img.Fits cells) (h : Represents img cells s f)
    (hop : i.opcode = .add) (he : i.effect img.width s = .ok s') :
    Performs img cells (.instr (.word .add .v .v (.const i.value)) :: putCell img.width .v .p) f
      s' := by
  rw [Instruction.effect_cellStep (.inl hop), Store.update_eq_setCell, h.address_zero hfits,
    Instruction.amount, hop] at he
  refine performs_own hfits h ?_ he
  rw [BitVec.ofInt_add, ← words_eq_ofInt h]
  rfl

theorem performs_sub (hfits : img.Fits cells) (h : Represents img cells s f)
    (hop : i.opcode = .sub) (he : i.effect img.width s = .ok s') :
    Performs img cells (.instr (.word .sub .v .v (.const i.value)) :: putCell img.width .v .p) f
      s' := by
  rw [Instruction.effect_cellStep (.inr hop), Store.update_eq_setCell, h.address_zero hfits,
    Instruction.amount, hop] at he
  refine performs_own hfits h ?_ he
  rw [← Int.sub_eq_add_neg, ofInt_sub, ← words_eq_ofInt h]
  rfl

/-- A constant is stored in the current cell. -/
theorem performs_constant (hfits : img.Fits cells) (h : Represents img cells s f) (x : Int)
    (hset : s.setCell 0 (img.width.truncate x) position = .ok s') :
    Performs img cells (.instr (.copy .v (.const x)) :: putCell img.width .v .p) f s' :=
  performs_own hfits h rfl hset

theorem apply_udiv {value n : Nat} (hvalue : value < 2 ^ 32) (hpos : 0 < n) (hn : n < 2 ^ 32) :
    BinaryOp.udiv.apply (BitVec.ofNat 32 value) (BitVec.ofInt 32 n) =
      some (BitVec.ofInt 32 (value / n : Nat)) := by
  have hdivisor : (BitVec.ofNat 32 n).toNat = n := by
    rw [BitVec.toNat_ofNat, Nat.mod_eq_of_lt hn]
  have hne : BitVec.ofNat 32 n ≠ 0 := by
    intro hzero
    rw [hzero] at hdivisor
    simp at hdivisor
    omega
  rw [BinaryOp.apply, BitVec.ofInt_natCast, if_neg hne, Option.some.injEq]
  apply BitVec.eq_of_toNat_eq
  rw [BitVec.toNat_udiv, hdivisor, BitVec.ofInt_natCast, BitVec.toNat_ofNat, BitVec.toNat_ofNat,
    Nat.mod_eq_of_lt hvalue,
    Nat.mod_eq_of_lt (Nat.lt_of_le_of_lt (Nat.div_le_self value n) hvalue)]

/-- A division by a number that is a word divides the cell. -/
theorem performs_div (hfits : img.Fits cells) (h : Represents img cells s f)
    (hop : i.opcode = .div) (hoffset : i.offset = 0) (hpos : 0 < i.value)
    (hlt : i.value < 2 ^ 32) (he : i.effect img.width s = .ok s') :
    Performs img cells (.instr (.word .udiv .v .v (.const i.value)) :: putCell img.width .v .p) f
      s' := by
  obtain ⟨n, hn⟩ := Int.eq_ofNat_of_zero_le (Int.le_of_lt hpos)
  rw [hn] at hpos hlt ⊢
  have hle : ¬ (n : Int) ≤ 0 := by omega
  simp only [Instruction.effect, hop, hn, hle, if_false, hoffset, Store.update_eq_setCell,
    h.address_zero hfits, Int.toNat_natCast] at he
  have hcell := h.getD_lt s.pointer.toNat
  have hword := h.getD_lt_word s.pointer.toNat
  rw [← img.width.truncate_of_lt (Nat.lt_of_le_of_lt (Nat.div_le_self _ n) hcell)] at he
  refine performs_own hfits h ?_ he
  rw [Image.exec, h.value, Frame.arg, apply_udiv hword (by omega) (by omega)]
  rfl

/-- A move leads `%p` to another cell, which is loaded. -/
theorem performs_move (hfits : img.Fits cells) (h : Represents img cells s f) {distance : Int}
    (hlow : 0 ≤ (s.move distance).pointer) (hhigh : (s.move distance).pointer < cells)
    {code : Instr} (hcode : img.exec f code = some
      (f.setAddress .p (f.addresses .p + BitVec.ofInt 64 (distance * img.width.bytes)))) :
    Performs img cells [.instr code, .instr (.load .v .p)] f (s.move distance) := by
  have haddress := h.address_add hlow
  have hindex : (s.move distance).pointer.toNat < cells := by omega
  have hshows : Shows img cells (s.move distance)
      (f.setAddress .p (f.addresses .p + BitVec.ofInt 64 (distance * img.width.bytes))) :=
    ⟨h.count, h.tape, h.input, h.output⟩
  have hload := hshows.exec_load hfits hindex .v .p haddress
  have hrun := Image.runAll_of_exec hcode (Image.runAll_of_exec hload (Image.runAll_nil _))
  exact ⟨_, _, rfl, hrun, ⟨hshows.congr rfl rfl rfl, hlow, hhigh, haddress, rfl⟩⟩

/-- Writing the current cell writes the low byte of `%v`. -/
theorem performs_write (hfits : img.Fits cells) (h : Represents img cells s f) {count : Nat}
    (hw : s.writeTimes position count = .ok s') :
    Performs img cells (List.replicate count (.instr (.putchar .v))) f s' := by
  refine ⟨List.replicate count (.putchar .v), ?_⟩
  rw [List.map_replicate]
  induction count generalizing s f with
  | zero =>
    cases hw
    exact ⟨f, rfl, rfl, h⟩
  | succ count ih =>
    obtain ⟨value, hcell, hw⟩ := bind_eq_ok_iff.1 hw
    obtain ⟨s₁, hemit, hw⟩ := bind_eq_ok_iff.1 hw
    obtain ⟨-, hvalue⟩ := Store.cell_eq_ok_iff.1 hcell
    obtain ⟨-, rfl⟩ := Store.emit_eq_ok_iff.1 hemit
    have hlt : value < 2 ^ 32 := hvalue ▸ h.getD_lt_word _
    have hbyte : UInt8.ofNat (f.words .v).toNat = UInt8.ofNat value := by
      rw [h.value, ← h.address_zero hfits, hvalue, BitVec.toNat_ofNat, Nat.mod_eq_of_lt hlt]
    have hpushed : Represents img cells { s with sink := s.sink.push (UInt8.ofNat value) }
        { f with output := f.output.push (UInt8.ofNat (f.words .v).toNat) } := by
      refine ⟨⟨h.count, h.tape, h.input, ?_⟩, h.low, h.high, h.address, h.value⟩
      simp only [Sink.push, h.output, hbyte]
    obtain ⟨f', -, hf', hs'⟩ := ih hpushed hw
    exact ⟨f', rfl, by rw [List.replicate_succ, Image.runAll_cons]; exact hf', hs'⟩

/-- Setting another cell leaves the current one represented. -/
theorem Represents.of_other (hfits : img.Fits cells) (h : Represents img cells s f) {offset : Int}
    (hrange : Operand.InRange offset) (hne : offset ≠ 0) (hon : s.OnTape (s.address offset))
    {value : Nat} {f' : Frame}
    (hshows : Shows img cells
      { s with tape := s.tape.setIfInBounds (s.address offset).toNat value } f')
    (haddress : f'.addresses .p = f.addresses .p) (hvalue : f'.words .v = f.words .v) :
    Represents img cells
      { s with tape := s.tape.setIfInBounds (s.address offset).toNat value } f' := by
  have hown : s.OnTape (s.address 0) := by
    rw [h.address_zero hfits]
    exact ⟨h.low, by rw [h.count]; exact h.pointer_lt⟩
  have hapart := Store.toNat_address_ne hrange hne hon hown
  rw [h.address_zero hfits] at hapart
  refine ⟨hshows, h.low, h.high, by rw [haddress, h.address], ?_⟩
  simp only [hvalue, h.value, Store.getD_setIfInBounds_ne hapart]

/-- A constant is stored in another cell. -/
theorem performs_store (hfits : img.Fits cells) (h : Represents img cells s f) {offset : Int}
    (hrange : Operand.InRange offset) (hne : offset ≠ 0) (x : Int)
    (hset : s.setCell offset (img.width.truncate x) position = .ok s') :
    Performs img cells
      [.instr (.offset .add .p2 .p (offset * img.width.bytes)),
        .instr (.copy .v2 (.const (img.width.truncate x : Nat))), .instr (.store .v2 .p2)]
      f s' := by
  obtain ⟨hon, rfl⟩ := Store.setCell_eq_ok_iff.1 hset
  have hindex : (s.address offset).toNat < cells := by
    rw [← h.count]
    exact hon.2
  -- the frame before the store
  let g := (f.setAddress .p2 (f.addresses .p + BitVec.ofInt 64 (offset * img.width.bytes))).setWord
    .v2 (BitVec.ofInt 32 (img.width.truncate x : Nat))
  have hstore : img.exec g (.store .v2 .p2) = _ :=
    exec_store hfits hindex (by simpa [g] using h.address_add hon.1)
  have hword : (g.words .v2).toNat % img.width.modulus = img.width.truncate x := by
    rw [show g.words .v2 = BitVec.ofInt 32 (img.width.truncate x : Nat) by simp [g],
      img.width.toNat_ofInt_mod, img.width.truncate_of_lt (img.width.truncate_lt x)]
  have hshows : Shows img cells s g := h.toShows.congr rfl rfl rfl
  have hstored := hshows.store hindex (g.words .v2).toNat
  rw [hword] at hstored
  refine ⟨[.offset .add .p2 .p (offset * img.width.bytes),
    .copy .v2 (.const (img.width.truncate x : Nat)), .store .v2 .p2], _, rfl,
    Image.runAll_of_exec rfl (Image.runAll_of_exec rfl (Image.runAll_of_exec hstore rfl)),
    h.of_other hfits hrange hne hon hstored rfl rfl⟩

/-- The code that adds a multiple of the current cell to a cell. -/
def productCode (w : Width) (i : Instruction) : List Instr :=
  [.word .mul .v2 .v (.const i.value), .offset .add .p2 .p (i.offset * w.bytes), .load .v3 .p2,
    .word .add .v3 .v3 (.temp .v2)]

/-- The sum that a product leaves, in `%v3` and in the cell. -/
theorem runAll_product (hfits : img.Fits cells) (h : Represents img cells s f)
    (hon : s.OnTape (s.address i.offset)) :
    ∃ f', img.runAll (productCode img.width i ++ storeCode img.width .v3 .p2) f = some f' ∧
      Shows img cells { s with
        tape := s.tape.setIfInBounds (s.address i.offset).toNat
          (img.width.truncate (s.tape.getD (s.address i.offset).toNat 0 +
            s.tape.getD s.pointer.toNat 0 * i.value)) } f' ∧
      f'.addresses .p = f.addresses .p ∧ f'.words .v = f.words .v ∧
      f'.words .v3 = BitVec.ofNat 32 (img.width.truncate
        (s.tape.getD (s.address i.offset).toNat 0 + s.tape.getD s.pointer.toNat 0 * i.value)) := by
  have hindex : (s.address i.offset).toNat < cells := by
    rw [← h.count]
    exact hon.2
  let g := (f.setWord .v2 (f.words .v * BitVec.ofInt 32 i.value)).setAddress .p2
    (f.addresses .p + BitVec.ofInt 64 (i.offset * img.width.bytes))
  have hg : g.addresses .p2 = BitVec.ofNat 64 (img.place (s.address i.offset).toNat) :=
    h.address_add hon.1
  have hload := (show Shows img cells s g from h.toShows.congr rfl rfl rfl).exec_load hfits hindex
    .v3 .p2 hg
  let k := (g.setWord .v3 (BitVec.ofNat 32 (s.tape.getD (s.address i.offset).toNat 0))).setWord .v3
    (BitVec.ofNat 32 (s.tape.getD (s.address i.offset).toNat 0) +
      f.words .v * BitVec.ofInt 32 i.value)
  have hsum : k.words .v3 = BitVec.ofInt 32 (s.tape.getD (s.address i.offset).toNat 0 +
      s.tape.getD s.pointer.toNat 0 * i.value) := by
    rw [BitVec.ofInt_add, BitVec.ofInt_mul, BitVec.ofInt_natCast, ← words_eq_ofInt h]
    rfl
  have hstore := runAll_storeCode (f := k) .v3 .p2 hfits hindex hg
  have hshows := (show Shows img cells s k from h.toShows.congr rfl rfl rfl).store hindex
    (k.words .v3).toNat
  rw [hsum, img.width.toNat_ofInt_mod] at hstore hshows
  have hrun : img.runAll (productCode img.width i ++ storeCode img.width .v3 .p2) f = _ :=
    Image.runAll_of_exec rfl (Image.runAll_of_exec rfl (Image.runAll_of_exec hload
      (Image.runAll_of_exec rfl hstore)))
  exact ⟨_, hrun, hshows.congr rfl rfl rfl, rfl, rfl, rfl⟩

/-- What a product does, clearing apart. -/
theorem eq_of_product (hfits : img.Fits cells) (h : Represents img cells s f)
    (hop : i.opcode = .mul) (hclear : ¬ (i.value = -1 ∧ i.offset = 0))
    (he : i.effect img.width s = .ok s') :
    s.OnTape (s.address i.offset) ∧ { s with
      tape := s.tape.setIfInBounds (s.address i.offset).toNat
        (img.width.truncate (s.tape.getD (s.address i.offset).toNat 0 +
          s.tape.getD s.pointer.toNat 0 * i.value)) } = s' := by
  simp only [Instruction.effect, hop, hclear, if_false] at he
  obtain ⟨source, hsource, he⟩ := bind_eq_ok_iff.1 he
  obtain ⟨-, rfl⟩ := Store.cell_eq_ok_iff.1 hsource
  rw [Store.update_eq_setCell, img.width.add_mul_truncate, h.address_zero hfits] at he
  exact Store.setCell_eq_ok_iff.1 he

/-- A product is added to another cell, or to the current one itself, whose
new value then has to come from `%v3`. -/
theorem performs_product (hfits : img.Fits cells) (h : Represents img cells s f)
    (hop : i.opcode = .mul) (hclear : ¬ (i.value = -1 ∧ i.offset = 0))
    (hrange : Operand.InRange i.offset) (he : i.effect img.width s = .ok s') :
    Performs img cells ((productCode img.width i ++ storeCode img.width .v3 .p2 ++
      if i.offset = 0 then [Instr.copy .v (.temp .v3)] else []).map .instr) f s' := by
  obtain ⟨hon, rfl⟩ := eq_of_product hfits h hop hclear he
  obtain ⟨f', hrun, hshows, haddress, hvalue, hsum⟩ := runAll_product hfits h hon
  by_cases hoffset : i.offset = 0
  · rw [if_pos hoffset]
    have hcopy : img.runAll [.copy .v (.temp .v3)] f' = some (f'.setWord .v (f'.words .v3)) := rfl
    have hboth : img.runAll (productCode img.width i ++ storeCode img.width .v3 .p2 ++
        [.copy .v (.temp .v3)]) f = some (f'.setWord .v (f'.words .v3)) := by
      rw [Image.runAll_append, hrun]
      exact hcopy
    refine ⟨_, _, rfl, hboth, hshows.congr rfl rfl rfl, h.low, h.high, haddress.trans h.address, ?_⟩
    rw [hoffset, h.address_zero hfits] at hon hsum ⊢
    rw [Store.getD_setIfInBounds_self hon.2]
    exact hsum
  · rw [if_neg hoffset, List.append_nil]
    exact ⟨_, f', rfl, hrun, h.of_other hfits hrange hoffset hon hshows haddress hvalue⟩

/-- **The code of an instruction that neither reads nor branches** does to the
frame what the instruction does to the store, as long as the pointer stays
on the tape and divisors are words. -/
theorem performs_of_effect (hfits : img.Fits cells) (h : Represents img cells s f)
    (plain : i.Plain) (hread : i.opcode ≠ .read) (hexpresses : Target.Expresses .qbe i)
    (hdivisor : i.opcode = .div → 0 < i.value ∧ i.value < 2 ^ 32)
    (he : i.effect img.width s = .ok s') (hlow : 0 ≤ s'.pointer) (hhigh : s'.pointer < cells)
    (st : State) : Performs img cells (step img.width st i).pieces f s' := by
  obtain ⟨hopen, hclose⟩ := plain
  obtain ⟨hright, hleft, hprint⟩ := hexpresses.not_pattern (by decide)
  cases hop : i.opcode with
  | add =>
    simp only [step, hop]
    exact performs_add hfits h hop he
  | sub =>
    simp only [step, hop]
    exact performs_sub hfits h hop he
  | right =>
    have hmove := hexpresses.move (.inl hop)
    simp only [step, hop, scaled_of_lt img.width hmove]
    simp only [Instruction.effect, hop, Instruction.displacement] at he
    cases he
    exact performs_move hfits h hlow hhigh rfl
  | left =>
    have hmove := hexpresses.move (.inr hop)
    simp only [step, hop, scaled_of_lt img.width hmove]
    have hneg : i.displacement = .ok (-i.value) := by
      rw [Instruction.displacement, hop]
      exact Operand.checked_of_natAbs_lt _ (by omega)
    simp only [Instruction.effect, hop, hneg] at he
    cases he
    refine performs_move hfits h hlow hhigh ?_
    rw [Int.neg_mul, BitVec.ofInt_neg, ← BitVec.sub_eq_add_neg]
    rfl
  | write =>
    simp only [Instruction.effect, hop] at he
    obtain ⟨s₁, hwrite, hflush⟩ := bind_eq_ok_iff.1 he
    obtain ⟨-, rfl⟩ := Store.flush_eq_ok_iff.1 hflush
    simp only [step, hop]
    exact performs_write hfits h hwrite
  | mul =>
    have hdistance := hexpresses.distance (by simp [hop])
    simp only [step, hop, scaled_of_lt img.width hdistance]
    by_cases hclear : i.value = -1 ∧ i.offset = 0
    · simp only [Instruction.effect, hop, hclear, and_self, if_true] at he ⊢
      exact performs_constant hfits h 0 he
    · have hrange : Operand.InRange i.offset := by
        unfold Operand.InRange Operand.least Operand.greatest
        omega
      have hproduct := performs_product hfits h hop hclear hrange he
      simp only [hclear, if_false]
      split <;> rename_i hoffset <;>
        simpa [hoffset, productCode, putCell_eq_map, Written.ok] using hproduct
  | div =>
    obtain ⟨hpos, hlt⟩ := hdivisor hop
    have hoffset := hexpresses.division hop
    simp only [step, hop, hoffset, if_true]
    exact performs_div hfits h hop hoffset hpos hlt he
  | store =>
    have hdistance := hexpresses.distance (by simp [hop])
    simp only [step, hop, scaled_of_lt img.width hdistance]
    simp only [Instruction.effect, hop] at he
    by_cases hoffset : i.offset = 0
    · rw [hoffset, ← img.width.truncate_of_lt (img.width.truncate_lt i.value)] at he
      simp only [hoffset, if_true]
      exact performs_constant hfits h _ he
    · have hrange : Operand.InRange i.offset := by
        unfold Operand.InRange Operand.least Operand.greatest
        omega
      simp only [hoffset, if_false]
      exact performs_store hfits h hrange hoffset i.value he
  | read => exact absurd hop hread
  | scanRight => exact absurd hop hright
  | scanLeft => exact absurd hop hleft
  | printRun => exact absurd hop hprint
  | loopStart | guard => simp [hop, Opcode.opensBlock] at hopen
  | loopEnd | label => simp [hop, Opcode.closesBlock] at hclose

end Instructions

end Qbe

end TapeCompiler
