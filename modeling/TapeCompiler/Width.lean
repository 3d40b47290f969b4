/-
TapeCompiler.Width — how many bits a cell of the tape has.

All arithmetic on cells is modulo `2 ^ bits`. A cell is held as a natural
number, so `Width.truncate` is the one way from a signed operand to a cell.
-/

namespace TapeCompiler

/-- The bit width of a cell. -/
inductive Width where
  | bits8
  | bits16
  | bits32
  deriving DecidableEq, Repr, Inhabited

/-- A bit count that is no cell width. -/
structure UnsupportedWidth where
  bits : Nat
  deriving DecidableEq, Repr, Inhabited

/-- The report of an unsupported width. -/
def UnsupportedWidth.message (e : UnsupportedWidth) : String :=
  s!"unsupported word width {e.bits}, expected 8, 16 or 32"

namespace Width

/-- Bits in a cell. -/
def bits : Width → Nat
  | .bits8 => 8
  | .bits16 => 16
  | .bits32 => 32

/-- Bytes in a cell. -/
def bytes : Width → Nat
  | .bits8 => 1
  | .bits16 => 2
  | .bits32 => 4

/-- The number of values a cell can hold. -/
def modulus : Width → Nat
  | .bits8 => 256
  | .bits16 => 65536
  | .bits32 => 4294967296

/-- The greatest value a cell can hold. -/
def mask (w : Width) : Nat := w.modulus - 1

/-- The width of a given number of bits. -/
def ofBits (bits : Nat) : Except UnsupportedWidth Width :=
  match bits with
  | 8 => .ok .bits8
  | 16 => .ok .bits16
  | 32 => .ok .bits32
  | other => .error ⟨other⟩

/-- The cell value congruent to a signed operand. -/
def truncate (w : Width) (x : Int) : Nat := (x % (w.modulus : Int)).toNat

theorem modulus_pos (w : Width) : 0 < w.modulus := by
  cases w <;> decide

/-- A truncated operand fits in a cell. -/
theorem truncate_lt (w : Width) (x : Int) : w.truncate x < w.modulus := by
  have h : (0 : Int) < w.modulus := by exact_mod_cast w.modulus_pos
  have h₁ := Int.emod_nonneg x (Int.ne_of_gt h)
  have h₂ := Int.emod_lt_of_pos x h
  unfold truncate
  omega

end Width

end TapeCompiler
