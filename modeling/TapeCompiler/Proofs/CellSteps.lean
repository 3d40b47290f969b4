/-
TapeCompiler.Proofs.CellSteps — counting on cells and moving the pointer.

Four opcodes count: `add` and `sub` on the current cell, `right` and `left`
on the pointer. An opcode and its opposite differ in the sign of the count
only, so both are read through `Instruction.amount`. Cells count modulo the
cell width and the pointer modulo 64 bits, hence amounts of neighbours add
up, whatever their signs (`Width.truncate_truncate_add`, `Store.move_move`).
-/
import TapeCompiler.Proofs.Blocks
import TapeCompiler.Proofs.StoreLaws
import Mathlib.Algebra.Ring.Nat

namespace TapeCompiler

/-! ## 1. Cells -/

namespace Width

variable (w : Width)

theorem modulus_eq : w.modulus = 2 ^ w.bits := by
  cases w <;> rfl

theorem cast_truncate (x : Int) : (w.truncate x : Int) = x % w.modulus := by
  have h : (0 : Int) < w.modulus := by exact_mod_cast w.modulus_pos
  exact Int.toNat_of_nonneg (Int.emod_nonneg x (Int.ne_of_gt h))

/-- Truncation only depends on the residue. -/
theorem truncate_congr {x y : Int} (h : x % w.modulus = y % w.modulus) :
    w.truncate x = w.truncate y := by
  rw [truncate, h, truncate]

theorem truncate_truncate_add (x y : Int) :
    w.truncate (w.truncate x + y) = w.truncate (x + y) := by
  apply w.truncate_congr
  rw [cast_truncate, Int.emod_add_emod]

theorem truncate_of_lt {value : Nat} (h : value < w.modulus) : w.truncate value = value := by
  have : ((w.truncate value : Nat) : Int) = value := by
    rw [cast_truncate, Int.emod_eq_of_lt (by omega) (by exact_mod_cast h)]
  exact_mod_cast this

/-- A multiple of a truncated factor, added modulo the width. -/
theorem add_mul_truncate (value factor : Nat) (x : Int) :
    (value + factor * w.truncate x) % w.modulus = w.truncate (value + factor * x) := by
  have h : (((value + factor * w.truncate x) % w.modulus : Nat) : Int) =
      w.truncate (value + factor * x) := by
    rw [cast_truncate]
    push_cast
    rw [cast_truncate, Int.add_emod, Int.mul_emod, Int.emod_emod, ← Int.mul_emod, ← Int.add_emod]
  exact_mod_cast h

theorem add_truncate (value : Nat) (x : Int) :
    (value + w.truncate x) % w.modulus = w.truncate (value + x) := by
  simpa using w.add_mul_truncate value 1 x

end Width

/-! ## 2. Amounts -/

namespace Instruction

/-- What a counting instruction adds to the cell or to the pointer. -/
def amount (i : Instruction) : Int :=
  match i.opcode with
  | .add | .right => i.value
  | .sub | .left => -i.value
  | _ => 0

/-- The instruction counts on the current cell. -/
def IsCellStep (i : Instruction) : Prop := i.opcode = .add ∨ i.opcode = .sub

instance decidableIsCellStep (i : Instruction) : Decidable i.IsCellStep :=
  inferInstanceAs (Decidable (_ ∨ _))

/-- The instruction moves the pointer. -/
def IsMove (i : Instruction) : Prop := i.opcode = .right ∨ i.opcode = .left

theorem IsCellStep.plain {i : Instruction} (h : i.IsCellStep) : i.Plain := by
  rcases h with h | h <;> simp [Plain, h, Opcode.opensBlock, Opcode.closesBlock]

theorem IsMove.plain {i : Instruction} (h : i.IsMove) : i.Plain := by
  rcases h with h | h <;> simp [Plain, h, Opcode.opensBlock, Opcode.closesBlock]

theorem effect_cellStep {i : Instruction} (h : i.IsCellStep) (w : Width) (s : Store) :
    i.effect w s = s.update 0 (fun value => w.truncate (value + i.amount)) i.position := by
  rcases h with h | h <;> simp [effect, amount, h, w.add_truncate]

theorem effect_cellStep_eq_ok_iff {i : Instruction} (h : i.IsCellStep) {w : Width}
    {s s' : Store} :
    i.effect w s = .ok s' ↔ s.OnTape (s.address 0) ∧
      { s with
        tape := s.tape.setIfInBounds (s.address 0).toNat
          (w.truncate (s.tape.getD (s.address 0).toNat 0 + i.amount)) } = s' := by
  rw [effect_cellStep h, Store.update_eq_setCell, Store.setCell_eq_ok_iff]

/-- A move succeeds unless its distance is the opposite of a number that
has none. -/
theorem effect_move {i : Instruction} (h : i.IsMove) (hrange : Operand.InRange i.amount)
    (w : Width) (s : Store) : i.effect w s = .ok (s.move i.amount) := by
  rcases h with h | h
  · simp [effect, amount, displacement, h]
  · simp only [amount, h] at hrange
    simp [effect, amount, displacement, Operand.neg, Operand.checked, h, hrange]

theorem eq_move_of_effect {i : Instruction} (h : i.IsMove) {w : Width} {s s' : Store}
    (he : i.effect w s = .ok s') : s.move i.amount = s' := by
  rcases h with h | h
  · simpa [effect, amount, displacement, h] using he
  · simp only [effect, displacement, Operand.neg, Operand.checked, h] at he
    split at he
    · rename_i heq
      split at heq <;> simp_all [amount]
    · cases he

end Instruction

/-! ## 3. Neighbours -/

namespace Store

/-- Addresses do not depend on the cells. -/
@[simp] theorem address_withTape (s : Store) (tape : Array Nat) (offset : Int) :
    ({ s with tape } : Store).address offset = s.address offset := rfl

/-- The pointer moves modulo 64 bits, so distances add up. -/
theorem move_move (s : Store) (x y : Int) : (s.move x).move y = s.move (x + y) := by
  simp only [move, Operand.wrap]
  rw [Int.bmod_add_bmod, Int.add_assoc]

theorem getD_setIfInBounds_self {tape : Array Nat} {index : Nat} (h : index < tape.size)
    (value : Nat) : (tape.setIfInBounds index value).getD index 0 = value := by
  simp [Array.getD, h]

theorem getD_setIfInBounds_ne {tape : Array Nat} {index index' : Nat} (h : index ≠ index')
    (value : Nat) : (tape.setIfInBounds index value).getD index' 0 = tape.getD index' 0 := by
  simp [Array.getD_eq_getD_getElem?, Array.getElem?_setIfInBounds_ne h]

/-- Setting a cell to the value it has changes nothing. -/
theorem setIfInBounds_getD (tape : Array Nat) (index : Nat) :
    tape.setIfInBounds index (tape.getD index 0) = tape := by
  ext k hk hk'
  · simp
  · rw [Array.getElem_setIfInBounds]
    split
    · subst k
      simp [Array.getD] at hk' ⊢
      simp [hk']
    · rfl

end Store

/-! ## 4. Amounts add up -/

namespace Instruction

/-- Both instructions count on the cell, or both move the pointer. -/
def Alongside (i j : Instruction) : Prop :=
  i.IsCellStep ∧ j.IsCellStep ∨ i.IsMove ∧ j.IsMove

theorem Alongside.self {i j : Instruction} (h : i.Alongside j) : i.Alongside i :=
  h.imp (fun h => ⟨h.1, h.1⟩) (fun h => ⟨h.1, h.1⟩)

/-- Only the opcode matters. -/
theorem Alongside.congr_right {i j k : Instruction} (h : i.Alongside j)
    (hop : k.opcode = j.opcode) : i.Alongside k := by
  simpa only [Alongside, IsCellStep, IsMove, hop] using h

theorem alongside_of_opposite {i j : Instruction} (h : i.opcode.opposite? = some j.opcode) :
    i.Alongside j := by
  cases hi : i.opcode <;> simp [hi, Opcode.opposite?] at h <;>
    simp [Alongside, IsCellStep, IsMove, hi, ← h]

theorem amount_join {i j : Instruction} (h : j.opcode = i.opcode) :
    amount { i with value := i.value + j.value } = i.amount + j.amount := by
  cases hi : i.opcode <;> simp [amount, h, hi]
  all_goals omega

theorem amount_cancel {i j : Instruction} (h : i.opcode.opposite? = some j.opcode) :
    amount { i with value := i.value - j.value } = i.amount + j.amount := by
  cases hi : i.opcode <;> simp [hi, Opcode.opposite?] at h <;> simp [amount, hi, ← h]
  all_goals omega

/-- Opposite opcodes count with opposite signs. -/
theorem amount_turn {i : Instruction} {op : Opcode} (h : i.opcode.opposite? = some op) :
    amount { i with opcode := op, value := -i.value } = i.amount := by
  cases hi : i.opcode <;> simp [hi, Opcode.opposite?] at h <;> simp [amount, hi, ← h]

variable {w : Width} {s s₁ s₂ : Store} {i j k : Instruction}

/-- Equal amounts do the same. -/
theorem effect_of_amount_eq (hkind : i.Alongside k) (hamount : k.amount = i.amount)
    (hrange : Operand.InRange k.amount) (he : i.effect w s = .ok s₁) : k.effect w s = .ok s₁ := by
  rcases hkind with ⟨hi, hk⟩ | ⟨hi, hk⟩
  · rw [effect_cellStep_eq_ok_iff hi] at he
    rw [effect_cellStep_eq_ok_iff hk, hamount]
    exact he
  · rw [effect_move hk hrange, hamount, eq_move_of_effect hi he]

/-- The amounts of two neighbours add up. -/
theorem effect_of_amount_add (hij : i.Alongside j) (hik : i.Alongside k)
    (hamount : k.amount = i.amount + j.amount) (hrange : Operand.InRange k.amount)
    (hi : i.effect w s = .ok s₁) (hj : j.effect w s₁ = .ok s₂) : k.effect w s = .ok s₂ := by
  rcases hik with ⟨hcell, hk⟩ | ⟨hmove, hk⟩
  · have hcell' : j.IsCellStep := by
      rcases hij with ⟨-, h⟩ | ⟨h, -⟩
      · exact h
      · rcases hcell with hc | hc <;> simp [IsMove, hc] at h
    obtain ⟨hon, rfl⟩ := (effect_cellStep_eq_ok_iff hcell).1 hi
    obtain ⟨-, rfl⟩ := (effect_cellStep_eq_ok_iff hcell').1 hj
    refine (effect_cellStep_eq_ok_iff hk).2 ⟨hon, ?_⟩
    simp only [Store.address_withTape, Array.setIfInBounds_setIfInBounds]
    rw [Store.getD_setIfInBounds_self hon.2, w.truncate_truncate_add, hamount, Int.add_assoc]
  · have hmove' : j.IsMove := by
      rcases hij with ⟨h, -⟩ | ⟨-, h⟩
      · rcases hmove with hm | hm <;> simp [IsCellStep, hm] at h
      · exact h
    rw [effect_move hk hrange, hamount, ← Store.move_move, eq_move_of_effect hmove hi,
      eq_move_of_effect hmove' hj]

/-- A step by nothing changes nothing. -/
theorem eq_of_effect_of_amount_zero (hkind : i.Alongside i) (hamount : i.amount = 0)
    (hs : s.Regular w) (he : i.effect w s = .ok s₁) : s₁ = s := by
  rcases hkind with ⟨hi, -⟩ | ⟨hi, -⟩
  · obtain ⟨-, rfl⟩ := (effect_cellStep_eq_ok_iff hi).1 he
    rw [hamount, Int.add_zero, w.truncate_of_lt (hs.cell_lt _), Store.setIfInBounds_getD]
  · rw [← eq_move_of_effect hi he, hamount, hs.move_zero]

end Instruction

/-! ## 5. Counts of reads and writes add up -/

namespace Store

theorem writeTimes_add {s s₁ : Store} {position : Option Position} {a b : Nat}
    (h : s.writeTimes position a = .ok s₁) :
    s.writeTimes position (a + b) = s₁.writeTimes position b := by
  induction a generalizing s with
  | zero =>
    cases h
    rw [Nat.zero_add]
  | succ a ih =>
    obtain ⟨value, hcell, h⟩ := bind_eq_ok_iff.1 h
    obtain ⟨s₂, hemit, h⟩ := bind_eq_ok_iff.1 h
    rw [Nat.add_right_comm, writeTimes]
    simp only [hcell, hemit, bind, Except.bind, ih h]

theorem readTimes_add {s s₁ : Store} {position : Option Position} {a b : Nat}
    (h : s.readTimes position a = .ok s₁) :
    s.readTimes position (a + b) = s₁.readTimes position b := by
  induction a generalizing s with
  | zero =>
    cases h
    rw [Nat.zero_add]
  | succ a ih =>
    obtain ⟨s₂, honce, h⟩ := bind_eq_ok_iff.1 h
    rw [Nat.add_right_comm, readTimes]
    simp only [honce, bind, Except.bind, ih h]

end Store

end TapeCompiler
