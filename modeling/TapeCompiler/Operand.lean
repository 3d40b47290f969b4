/-
TapeCompiler.Operand — 64-bit arithmetic on instruction operands and sizes.

Counts, labels, factors and cell offsets are signed 64-bit numbers; tape
sizes and step counts are unsigned 64-bit numbers. How often something was
done is tallied in signed 32-bit numbers. All of them are held as unbounded
integers here, so that every law of integer arithmetic applies, and the
width only shows where a result could leave it:

* `Operand.add`, `Operand.sub`, `Operand.mul`, `Operand.neg`, `Size.mul` and
  `Tally.next` refuse a result out of range and say which operation it was;
* `Operand.wrap` brings any integer back into range modulo `2 ^ 64`, which
  is how the data pointer moves.
-/

namespace TapeCompiler

/-! ## 1. Overflow -/

/-- The operation whose result does not fit its word. -/
inductive Overflow where
  | add
  | subtract
  | multiply
  | negate
  deriving DecidableEq, Repr, Inhabited

/-- The report of an overflow. -/
def Overflow.message : Overflow → String
  | .add => "attempt to add with overflow"
  | .subtract => "attempt to subtract with overflow"
  | .multiply => "attempt to multiply with overflow"
  | .negate => "attempt to negate with overflow"

/-! ## 2. Signed operands -/

/-- The least signed operand, `-2 ^ 63`. -/
def Operand.least : Int := -9223372036854775808

/-- The greatest signed operand, `2 ^ 63 - 1`. -/
def Operand.greatest : Int := 9223372036854775807

/-- An integer that a signed 64-bit word can hold. -/
def Operand.InRange (x : Int) : Prop :=
  Operand.least ≤ x ∧ x ≤ Operand.greatest

instance Operand.decidableInRange (x : Int) : Decidable (Operand.InRange x) :=
  inferInstanceAs (Decidable (_ ∧ _))

/-- `x` itself if it is in range, otherwise the failure of `operation`. -/
def Operand.checked (operation : Overflow) (x : Int) : Except Overflow Int :=
  if Operand.InRange x then .ok x else .error operation

/-- The sum, if it is in range. -/
def Operand.add (a b : Int) : Except Overflow Int :=
  Operand.checked .add (a + b)

/-- The difference, if it is in range. -/
def Operand.sub (a b : Int) : Except Overflow Int :=
  Operand.checked .subtract (a - b)

/-- The product, if it is in range. -/
def Operand.mul (a b : Int) : Except Overflow Int :=
  Operand.checked .multiply (a * b)

/-- The opposite number, if it is in range: only `-2 ^ 63` has none. -/
def Operand.neg (a : Int) : Except Overflow Int :=
  Operand.checked .negate (-a)

/-- The operand congruent to `x` modulo `2 ^ 64`. -/
def Operand.wrap (x : Int) : Int :=
  x.bmod 18446744073709551616

/-! ## 3. Unsigned sizes -/

/-- The greatest unsigned 64-bit number, `2 ^ 64 - 1`. -/
def Size.greatest : Nat := 18446744073709551615

/-- The product of two sizes, if it is in range. -/
def Size.mul (a b : Nat) : Except Overflow Nat :=
  if a * b ≤ Size.greatest then .ok (a * b) else .error .multiply

/-! ## 4. Tallies -/

/-- The greatest signed 32-bit number, `2 ^ 31 - 1`. -/
def Tally.greatest : Nat := 2147483647

/-- A tally that counts one more, if it can. -/
def Tally.next (n : Nat) : Except Overflow Nat :=
  if n < Tally.greatest then .ok (n + 1) else .error .add

/-! ## 5. Laws -/

/-- A sequence of two steps succeeds exactly when the first does and the
second does on its result. -/
theorem bind_eq_ok_iff {ε α β : Type} {x : Except ε α} {f : α → Except ε β} {b : β} :
    (x >>= f) = .ok b ↔ ∃ a, x = .ok a ∧ f a = .ok b := by
  cases x with
  | error e => simp [bind, Except.bind]
  | ok a => simp [bind, Except.bind]

theorem Operand.checked_eq_ok_iff {operation : Overflow} {x y : Int} :
    Operand.checked operation x = .ok y ↔ Operand.InRange x ∧ x = y := by
  unfold Operand.checked
  by_cases h : Operand.InRange x <;> simp [h]

theorem Tally.next_eq_ok_iff {n m : Nat} :
    Tally.next n = .ok m ↔ n < Tally.greatest ∧ n + 1 = m := by
  unfold Tally.next
  by_cases h : n < Tally.greatest <;> simp [h]

theorem Tally.next_eq_error_iff {n : Nat} {cause : Overflow} :
    Tally.next n = .error cause ↔ Tally.greatest ≤ n ∧ .add = cause := by
  unfold Tally.next
  by_cases h : n < Tally.greatest
  · simp [h, Nat.not_le_of_lt h]
  · simp [h, Nat.le_of_not_lt h]

theorem Operand.wrap_inRange (x : Int) : Operand.InRange (Operand.wrap x) := by
  unfold Operand.wrap Operand.InRange Operand.least Operand.greatest
  have h := Int.le_bmod (x := x) (m := 18446744073709551616) (by decide)
  have h' := Int.bmod_lt (x := x) (m := 18446744073709551616) (by decide)
  omega

theorem Operand.wrap_of_inRange {x : Int} (h : Operand.InRange x) : Operand.wrap x = x := by
  unfold Operand.InRange Operand.least Operand.greatest at h
  unfold Operand.wrap
  rw [Int.bmod_eq_of_le] <;> omega

end TapeCompiler
