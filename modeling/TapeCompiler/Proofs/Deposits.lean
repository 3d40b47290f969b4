/-
TapeCompiler.Proofs.Deposits — what straight steps add to which cells.

A body of cell steps and moves whose pointer comes back is a list of
deposits: amounts added to cells at fixed distances. Deposits commute,
since cells count modulo the cell width, so all that matters of a list is
what each cell gets in all (`Store.total`) and the first deposit beyond
the tape, if there is one. `Store.depositAll_eq` says so.

* `Instruction.effects_of_finalPointer` reads a body as deposits.
* `Instruction.effects_products` reads the products that replace a loop as
  deposits: those of the body without the counter's own, as many times as
  the counter says.
-/
import TapeCompiler.Flatten
import TapeCompiler.Proofs.CellSteps
import TapeCompiler.Proofs.Refinement
import Mathlib.Algebra.Order.Ring.Int

namespace TapeCompiler

/-! ## 1. Raising cells -/

namespace Width

/-- Each cell of a tape raised by the amount for its index. -/
def raise (w : Width) (amounts : Nat → Int) (tape : Array Nat) : Array Nat :=
  tape.mapIdx (fun index (value : Nat) => w.truncate (value + amounts index))

variable {w : Width} {tape : Array Nat}

@[simp] theorem size_raise (amounts : Nat → Int) : (w.raise amounts tape).size = tape.size := by
  simp [raise]

theorem getD_raise (amounts : Nat → Int) {index : Nat} (h : index < tape.size) :
    (w.raise amounts tape).getD index 0 =
      w.truncate (tape.getD index 0 + amounts index) := by
  simp [raise, Array.getD, h]

theorem raise_raise (f g : Nat → Int) :
    w.raise g (w.raise f tape) = w.raise (fun index => f index + g index) tape := by
  ext index h h'
  · simp
  · simp [raise, w.truncate_truncate_add, Int.add_assoc]

/-- Raised cells fit the width. -/
theorem le_mask_of_mem_raise (amounts : Nat → Int) :
    ∀ value ∈ w.raise amounts tape, value ≤ w.mask := by
  intro value hvalue
  obtain ⟨index, hindex, rfl⟩ := Array.mem_iff_getElem.1 hvalue
  have hlt := w.truncate_lt (tape.getD index 0 + amounts index)
  have hsize : index < tape.size := by simpa using hindex
  simp only [raise, Array.getElem_mapIdx]
  simp only [Array.getD, hsize, dif_pos] at hlt
  exact Nat.le_sub_one_of_lt hlt

/-- Raising by nothing changes nothing. -/
theorem raise_zero (h : ∀ value ∈ tape, value ≤ w.mask) : w.raise (fun _ => 0) tape = tape := by
  have hpos := w.modulus_pos
  ext index hi hi'
  · simp
  · have hle := h tape[index] (Array.getElem_mem hi')
    have hlt : tape[index] < w.modulus := by
      unfold mask at hle
      omega
    simp [raise, w.truncate_of_lt hlt]

/-- Counting on one cell raises that cell. -/
theorem setIfInBounds_eq_raise (h : ∀ value ∈ tape, value ≤ w.mask) (index : Nat) (amount : Int) :
    tape.setIfInBounds index (w.truncate (tape.getD index 0 + amount)) =
      w.raise (fun other => if index = other then amount else 0) tape := by
  have hpos := w.modulus_pos
  ext other hi hi'
  · simp
  · simp only [Array.size_setIfInBounds] at hi
    rw [Array.getElem_setIfInBounds hi]
    split
    · subst other
      simp [raise, Array.getD, hi]
    · have hle := h tape[other] (Array.getElem_mem hi)
      have hlt : tape[other] < w.modulus := by
        unfold mask at hle
        omega
      simp [raise, *, w.truncate_of_lt hlt]

/-- What a cell held before it was raised does not show once it is set. -/
theorem setIfInBounds_raise_setIfInBounds (amounts : Nat → Int) (index before value : Nat) :
    (w.raise amounts (tape.setIfInBounds index before)).setIfInBounds index value =
      (w.raise amounts tape).setIfInBounds index value := by
  ext other hi hi'
  · simp
  · have hsize : other < tape.size := by simpa using hi
    rw [Array.getElem_setIfInBounds (by simpa using hsize),
      Array.getElem_setIfInBounds (by simpa using hsize)]
    split
    · rfl
    · rename_i hne
      simp only [raise, Array.getElem_mapIdx, Array.getElem_setIfInBounds hsize, if_neg hne]

/-- Where two raises agree on all cells but one, setting that one makes up
for the difference. -/
theorem setIfInBounds_raise {f g : Nat → Int} {index value : Nat}
    (hothers : ∀ other ≠ index, f other = g other)
    (hvalue : w.truncate (tape.getD index 0 + g index) = value) :
    (w.raise f tape).setIfInBounds index value = w.raise g tape := by
  ext other hi hi'
  · simp
  · have hsize : other < tape.size := by simpa using hi
    rw [Array.getElem_setIfInBounds (by simpa using hsize)]
    split
    · subst other
      rw [← hvalue]
      simp [raise, Array.getD, hsize]
    · rename_i hne
      simp [raise, hothers other (Ne.symm hne)]

end Width

/-! ## 2. Deposits -/

/-- An amount to be added to the cell at a distance from the pointer. -/
structure Deposit where
  offset : Int
  amount : Int
  position : Option Position

/-- The deposit `times` times. -/
def Deposit.scale (times : Nat) (d : Deposit) : Deposit := { d with amount := times * d.amount }

/-- The multiple of the current cell that stands for a deposit. -/
def Deposit.product (d : Deposit) : Instruction := ⟨.mul, d.amount, d.offset, d.position⟩

namespace Store

/-- Makes a deposit. -/
def deposit (w : Width) (s : Store) (d : Deposit) : Except Crash Store :=
  s.update d.offset (fun value => w.truncate (value + d.amount)) d.position

/-- Makes deposits in a row. -/
def depositAll (w : Width) (deposits : List Deposit) (s : Store) : Except Crash Store :=
  deposits.foldlM (deposit w) s

theorem depositAll_cons (w : Width) (d : Deposit) (deposits : List Deposit) (s : Store) :
    s.depositAll w (d :: deposits) =
      (s.deposit w d >>= fun s₁ => s₁.depositAll w deposits) := rfl

/-- What the cell at an index gets of some deposits. -/
def total (s : Store) : List Deposit → Nat → Int
  | [], _ => 0
  | d :: deposits, index =>
    (if (s.address d.offset).toNat = index then d.amount else 0) + s.total deposits index

/-- The deposit lies beyond the tape. -/
def Misses (s : Store) (d : Deposit) : Prop := ¬ s.OnTape (s.address d.offset)

instance decidableMisses (s : Store) (d : Deposit) : Decidable (s.Misses d) :=
  inferInstanceAs (Decidable (¬ _))

variable {w : Width} {s s₁ : Store}

/-- The pointer and the size of the tape decide where deposits go. -/
theorem total_withTape (s : Store) (tape : Array Nat) (deposits : List Deposit) :
    total { s with tape } deposits = total s deposits := by
  funext index
  induction deposits with
  | nil => rfl
  | cons d deposits ih =>
    rw [total, total, ih]
    rfl

theorem onTape_withTape {tape : Array Nat} (hsize : tape.size = s.tape.size) (index : Int) :
    OnTape { s with tape } index ↔ s.OnTape index := by
  simp [OnTape, hsize]

theorem misses_withTape {tape : Array Nat} (hsize : tape.size = s.tape.size) (d : Deposit) :
    Misses { s with tape } d ↔ s.Misses d := by
  simp only [Misses, onTape_withTape hsize, address_withTape]

theorem deposit_of_misses {d : Deposit} (h : s.Misses d) :
    s.deposit w d = .error ⟨.outOfBounds (s.address d.offset) d.position, s.sink⟩ := by
  rw [deposit, update_eq_setCell]
  exact setCell_eq_error_iff.2 ⟨h, rfl⟩

theorem deposit_of_not_misses {d : Deposit} (h : ¬ s.Misses d)
    (hcells : ∀ value ∈ s.tape, value ≤ w.mask) :
    s.deposit w d = .ok { s with
      tape := w.raise (fun index => if (s.address d.offset).toNat = index then d.amount else 0)
        s.tape } := by
  rw [deposit, update_eq_setCell, ← Width.setIfInBounds_eq_raise hcells]
  exact setCell_eq_ok_iff.2 ⟨Decidable.of_not_not h, rfl⟩

/-- **What deposits come to**: the first one beyond the tape fails, or every
cell is raised by its total. -/
theorem depositAll_eq {deposits : List Deposit} (hcells : ∀ value ∈ s.tape, value ≤ w.mask) :
    s.depositAll w deposits =
      match deposits.find? (fun d => s.Misses d) with
      | some d => .error ⟨.outOfBounds (s.address d.offset) d.position, s.sink⟩
      | none => .ok { s with tape := w.raise (s.total deposits) s.tape } := by
  induction deposits generalizing s with
  | nil =>
    have hzero : s.total [] = fun _ => 0 := rfl
    simp only [List.find?_nil, hzero, Width.raise_zero hcells]
    rfl
  | cons d deposits ih =>
    rw [depositAll_cons]
    by_cases h : s.Misses d
    · rw [deposit_of_misses h, List.find?_cons_of_pos (by simpa using h)]
      rfl
    · have hd := deposit_of_not_misses h hcells
      rw [hd, List.find?_cons_of_neg (by simpa using h)]
      simp only [bind, Except.bind]
      rw [ih (Width.le_mask_of_mem_raise _)]
      simp only [misses_withTape (Width.size_raise _), address_withTape, total_withTape,
        Width.raise_raise]
      rfl

end Store

/-! ## 3. A body as deposits -/

/-- What a body deposits, with the pointer at a distance `pointer` from where
it started. -/
def deposits (pointer : Int) : List Instruction → List Deposit
  | [] => []
  | i :: rest =>
    if i.IsCellStep then ⟨pointer, i.amount, i.position⟩ :: deposits pointer rest
    else deposits (pointer + i.amount) rest

namespace Instruction

theorem displacement_eq_ok {i : Instruction} (h : i.IsMove) {distance : Int}
    (hd : i.displacement = .ok distance) : distance = i.amount := by
  rcases h with h | h
  · simp only [displacement, h, Except.ok.injEq] at hd
    simp [amount, h, hd]
  · simp only [displacement, h] at hd
    obtain ⟨-, rfl⟩ := Operand.checked_eq_ok_iff.1 hd
    simp [amount, h]

theorem IsMove.not_cellStep {i : Instruction} (h : i.IsMove) : ¬ i.IsCellStep := by
  rcases h with h | h <;> simp [IsCellStep, h]

theorem effect_of_displacement {i : Instruction} (h : i.IsMove) {distance : Int}
    (hd : i.displacement = .ok distance) (w : Width) (s : Store) :
    i.effect w s = .ok (s.move distance) := by
  rcases h with h | h <;> simp [effect, h, hd]

end Instruction

theorem deposits_of_cellStep {i : Instruction} (h : i.IsCellStep) (pointer : Int)
    (rest : List Instruction) :
    deposits pointer (i :: rest) =
      ⟨pointer, i.amount, i.position⟩ :: deposits pointer rest := by
  rw [deposits, if_pos h]

theorem deposits_of_move {i : Instruction} (h : i.IsMove) (pointer : Int)
    (rest : List Instruction) :
    deposits pointer (i :: rest) = deposits (pointer + i.amount) rest := by
  rw [deposits, if_neg h.not_cellStep]

theorem deposits_of_other {i : Instruction} (hcell : ¬ i.IsCellStep) (hmove : ¬ i.IsMove)
    (pointer : Int) (rest : List Instruction) :
    deposits pointer (i :: rest) = deposits pointer rest := by
  have hamount : i.amount = 0 := by
    unfold Instruction.IsCellStep Instruction.IsMove at *
    unfold Instruction.amount
    split <;> simp_all
  rw [deposits, if_neg hcell, hamount, Int.add_zero]

/-- A move that is followed leads to where it says, and that is in range. -/
theorem Instruction.IsMove.next_eq {i : Instruction} (h : i.IsMove) {pointer distance next : Int}
    (hd : i.displacement = .ok distance) (hnext : Operand.add pointer distance = .ok next) :
    i.displacement = .ok i.amount ∧ Operand.InRange (pointer + i.amount) ∧
      pointer + i.amount = next := by
  obtain ⟨hrange, rfl⟩ := Operand.checked_eq_ok_iff.1 hnext
  obtain rfl := Instruction.displacement_eq_ok h hd
  exact ⟨hd, hrange, rfl⟩

/-- The pointer that the flattener keeps is the one of the deposits. -/
theorem pointer_of_displacement {i : Instruction} (h : i.IsMove) {α : Type} {pointer : Int}
    {f : Int → Except Overflow α} {result : α}
    (hrun : (do
      let distance ← i.displacement
      let pointer ← Operand.add pointer distance
      f pointer) = .ok result) :
    i.displacement = .ok i.amount ∧ Operand.InRange (pointer + i.amount) ∧
      f (pointer + i.amount) = .ok result := by
  obtain ⟨distance, hd, hrun⟩ := bind_eq_ok_iff.1 hrun
  obtain ⟨next, hnext, hrun⟩ := bind_eq_ok_iff.1 hrun
  obtain ⟨hamount, hrange, rfl⟩ := h.next_eq hd hnext
  exact ⟨hamount, hrange, hrun⟩

/-- What a body with a known final pointer can start with. -/
theorem finalPointer_cons {pointer final : Int} {i : Instruction} {rest : List Instruction}
    (h : finalPointer? pointer (i :: rest) = .ok (some final)) :
    (i.IsCellStep ∧ finalPointer? pointer rest = .ok (some final)) ∨
      (i.IsMove ∧ i.displacement = .ok i.amount ∧ Operand.InRange (pointer + i.amount) ∧
        finalPointer? (pointer + i.amount) rest = .ok (some final)) := by
  unfold finalPointer? at h
  split at h
  · rename_i hop
    exact .inr ⟨.inl hop, pointer_of_displacement (.inl hop) h⟩
  · rename_i hop
    exact .inr ⟨.inr hop, pointer_of_displacement (.inr hop) h⟩
  · rename_i hop
    exact .inl ⟨.inl hop, h⟩
  · rename_i hop
    exact .inl ⟨.inr hop, h⟩
  · cases h

/-- A body with a known final pointer holds no bracket. -/
theorem plain_of_finalPointer {body : List Instruction} {pointer final : Int}
    (h : finalPointer? pointer body = .ok (some final)) : ∀ i ∈ body, i.Plain := by
  induction body generalizing pointer with
  | nil => simp
  | cons i rest ih =>
    rcases finalPointer_cons h with ⟨hop, h⟩ | ⟨hop, -, -, h⟩
    · exact List.forall_mem_cons.2 ⟨hop.plain, ih h⟩
    · exact List.forall_mem_cons.2 ⟨hop.plain, ih h⟩

theorem inRange_of_mem_deposits {body : List Instruction} {pointer final : Int} {d : Deposit}
    (h : finalPointer? pointer body = .ok (some final)) (hrange : Operand.InRange pointer)
    (hd : d ∈ deposits pointer body) : Operand.InRange d.offset := by
  induction body generalizing pointer with
  | nil => cases hd
  | cons i rest ih =>
    rcases finalPointer_cons h with ⟨hop, h⟩ | ⟨hop, -, hnext, h⟩
    · rw [deposits_of_cellStep hop] at hd
      rcases List.mem_cons.1 hd with rfl | hd
      · exact hrange
      · exact ih h hrange hd
    · rw [deposits_of_move hop] at hd
      exact ih h hnext hd

namespace Store

theorem address_zero_move (s : Store) (distance : Int) :
    (s.move distance).address 0 = s.address distance := by
  simp only [address, move, Operand.wrap, Int.add_zero, Int.bmod_bmod]

/-- Setting the cell under a moved pointer is setting a cell at a distance. -/
theorem setCell_move (s : Store) (distance : Int) (value : Nat) (position : Option Position) :
    (s.move distance).setCell 0 value position =
      (s.setCell distance value position).map (fun s' => s'.move distance) := by
  unfold setCell
  rw [address_zero_move]
  have hon : (s.move distance).OnTape (s.address distance) ↔ s.OnTape (s.address distance) :=
    Iff.rfl
  by_cases h : s.OnTape (s.address distance)
  · simp only [hon, h, if_true]
    rfl
  · simp only [hon, h, if_false]
    rfl

end Store

/-- **A body makes its deposits**, and moves the pointer to where it ends. -/
theorem Instruction.effects_of_finalPointer {body : List Instruction} {pointer final : Int}
    (h : finalPointer? pointer body = .ok (some final)) (w : Width) (s : Store) :
    effects w body (s.move pointer) =
      (s.depositAll w (deposits pointer body)).map (fun s' => s'.move final) := by
  induction body generalizing pointer s with
  | nil =>
    cases h
    rfl
  | cons i rest ih =>
    rw [effects_cons]
    rcases finalPointer_cons h with ⟨hop, h⟩ | ⟨hop, hdistance, -, h⟩
    · rw [deposits_of_cellStep hop, effect_cellStep hop, Store.update_eq_setCell,
        Store.setCell_move, Store.address_zero_move]
      have hdeposit : s.setCell pointer
          (w.truncate (s.tape.getD (s.address pointer).toNat 0 + i.amount)) i.position =
            s.deposit w ⟨pointer, i.amount, i.position⟩ := by
        rw [Store.deposit, Store.update_eq_setCell]
      change (Except.map _ (s.setCell pointer
        (w.truncate (s.tape.getD (s.address pointer).toNat 0 + i.amount)) i.position) >>= _) = _
      rw [hdeposit, Store.depositAll_cons]
      cases s.deposit w ⟨pointer, i.amount, i.position⟩ with
      | error c => rfl
      | ok s₁ => exact ih h s₁
    · rw [deposits_of_move hop, effect_of_displacement hop hdistance, ← ih h, ← Store.move_move]
      rfl

/-! ## 4. The counter and the products -/

/-- What some deposits add to the cell that the body started on. -/
def ownShare (deposits : List Deposit) : Int :=
  ((deposits.filter (fun d => d.offset = 0)).map Deposit.amount).sum

theorem ownShare_cons (d : Deposit) (deposits : List Deposit) :
    ownShare (d :: deposits) = (if d.offset = 0 then d.amount else 0) + ownShare deposits := by
  by_cases h : d.offset = 0 <;> simp [ownShare, h]

/-- The drop that was counted is what the body takes from its own cell. -/
theorem ownShare_of_counterDrop {body : List Instruction} {pointer drop result : Int}
    (h : counterDrop? pointer drop body = .ok (some result)) :
    ownShare (deposits pointer body) = drop - result := by
  induction body generalizing pointer drop with
  | nil =>
    cases h
    simp [ownShare, deposits]
  | cons i rest ih =>
    unfold counterDrop? at h
    split at h
    · rename_i hop
      rw [deposits_of_move (.inl hop)]
      exact ih (pointer_of_displacement (.inl hop) h).2.2
    · rename_i hop
      rw [deposits_of_move (.inr hop)]
      exact ih (pointer_of_displacement (.inr hop) h).2.2
    · rename_i hop
      split at h
      · cases h
      · rename_i hne
        rw [deposits_of_cellStep (.inl hop), ownShare_cons, if_neg hne, ih h]
        omega
    · rename_i hop
      rw [deposits_of_cellStep (.inr hop), ownShare_cons]
      split at h
      · rename_i hzero
        obtain ⟨next, hnext, h⟩ := bind_eq_ok_iff.1 h
        obtain ⟨-, rfl⟩ := Operand.checked_eq_ok_iff.1 hnext
        rw [if_pos hzero, ih h]
        simp only [Instruction.amount, hop]
        omega
      · rename_i hne
        rw [if_neg hne, ih h]
        omega
    · rename_i hright hleft hadd hsub
      rw [deposits_of_other (fun hstep => hstep.elim hadd hsub) (fun hop => hop.elim hright hleft)]
      exact ih h

/-- The products are the deposits beside the counter. -/
theorem products_eq {body done terms : List Instruction} {pointer : Int}
    (h : products pointer done body = .ok terms) :
    terms = done.reverse ++
      ((deposits pointer body).filter (fun d => d.offset ≠ 0)).map Deposit.product := by
  induction body generalizing pointer done with
  | nil =>
    cases h
    simp [deposits]
  | cons i rest ih =>
    have hmove (hop : i.IsMove) (h : (do
        let distance ← FlattenError.ofOverflow i.displacement
        let pointer ← FlattenError.ofOverflow (Operand.add pointer distance)
        products pointer done rest) = .ok terms) :
        terms = done.reverse ++
          ((deposits pointer (i :: rest)).filter (fun d => d.offset ≠ 0)).map Deposit.product := by
      obtain ⟨distance, hd, h⟩ := bind_eq_ok_iff.1 h
      obtain ⟨next, hnext, h⟩ := bind_eq_ok_iff.1 h
      rw [FlattenError.ofOverflow_eq_ok_iff] at hd hnext
      obtain ⟨-, -, rfl⟩ := hop.next_eq hd hnext
      rw [deposits_of_move hop]
      exact ih h
    unfold products at h
    split at h
    · rename_i hop
      exact hmove (.inl hop) h
    · rename_i hop
      exact hmove (.inr hop) h
    · rename_i hop
      rw [deposits_of_cellStep (.inl hop)]
      split at h
      · cases h
      · rename_i hne
        simpa [hne, Deposit.product, Instruction.amount, hop] using ih h
    · rename_i hop
      rw [deposits_of_cellStep (.inr hop)]
      split at h
      · rename_i hzero
        simpa [hzero] using ih h
      · rename_i hne
        obtain ⟨factor, hfactor, h⟩ := bind_eq_ok_iff.1 h
        rw [FlattenError.ofOverflow_eq_ok_iff] at hfactor
        obtain ⟨-, rfl⟩ := Operand.checked_eq_ok_iff.1 hfactor
        simpa [hne, Deposit.product, Instruction.amount, hop] using ih h
    · cases h

/-- A product is that of a deposit beside the counter. -/
theorem mem_products {body terms : List Instruction} {i : Instruction}
    (h : products 0 [] body = .ok terms) (hi : i ∈ terms) :
    ∃ d ∈ deposits 0 body, d.offset ≠ 0 ∧ i = d.product := by
  rw [products_eq h, List.reverse_nil, List.nil_append] at hi
  obtain ⟨d, hd, rfl⟩ := List.mem_map.1 hi
  obtain ⟨hd, hbeside⟩ := List.mem_filter.1 hd
  exact ⟨d, hd, by simpa using hbeside, rfl⟩

namespace Store

variable {w : Width} {s s₁ : Store}

/-- Cells at different distances are different cells. -/
theorem address_eq_address_zero_iff {offset : Int} (h : Operand.InRange offset) :
    s.address offset = s.address 0 ↔ offset = 0 := by
  unfold Operand.InRange Operand.least Operand.greatest at h
  constructor
  · intro heq
    simp only [address, Operand.wrap, Int.bmod] at heq
    split at heq <;> split at heq <;> omega
  · rintro rfl
    rfl

theorem toNat_address_ne {offset : Int} (h : Operand.InRange offset) (hne : offset ≠ 0)
    (hon : s.OnTape (s.address offset)) (hon' : s.OnTape (s.address 0)) :
    (s.address offset).toNat ≠ (s.address 0).toNat := by
  intro heq
  apply hne
  rw [← address_eq_address_zero_iff (s := s) h]
  have h₁ := hon.1
  have h₂ := hon'.1
  omega

/-- What the current cell gets. -/
theorem total_own {deposits : List Deposit} (hrange : ∀ d ∈ deposits, Operand.InRange d.offset)
    (hhit : ∀ d ∈ deposits, ¬ s.Misses d) (hon : s.OnTape (s.address 0)) :
    s.total deposits (s.address 0).toNat = ownShare deposits := by
  induction deposits with
  | nil => rfl
  | cons d deposits ih =>
    obtain ⟨hd, hrange⟩ := List.forall_mem_cons.1 hrange
    obtain ⟨hdon, hhit⟩ := List.forall_mem_cons.1 hhit
    rw [total, ownShare_cons, ih hrange hhit]
    by_cases hzero : d.offset = 0
    · simp [hzero]
    · rw [if_neg (toNat_address_ne hd hzero (Decidable.of_not_not hdon) hon), if_neg hzero]

/-- What the other cells get of the products. -/
theorem total_products (times : Nat) (deposits : List Deposit) {index : Nat}
    (h : index ≠ (s.address 0).toNat) :
    s.total ((deposits.filter (fun d => d.offset ≠ 0)).map (Deposit.scale times)) index =
      times * s.total deposits index := by
  induction deposits with
  | nil => simp [total]
  | cons d deposits ih =>
    by_cases hzero : d.offset = 0
    · have hown : (s.address d.offset).toNat ≠ index := by
        rw [hzero]
        exact fun heq => h heq.symm
      rw [List.filter_cons_of_neg (by simpa using hzero), ih, total, if_neg hown, Int.zero_add]
    · rw [List.filter_cons_of_pos (by simpa using hzero), List.map_cons, total, total, ih,
        Int.mul_add]
      congr 1
      by_cases hi : (s.address d.offset).toNat = index
      · have hi' : (s.address (d.scale times).offset).toNat = index := hi
        rw [if_pos hi, if_pos hi']
        rfl
      · have hi' : ¬ (s.address (d.scale times).offset).toNat = index := hi
        rw [if_neg hi, if_neg hi', Int.mul_zero]

/-- The first deposit beyond the tape is the same for body and products. -/
theorem find?_products (times : Nat) (deposits : List Deposit) (hon : s.OnTape (s.address 0)) :
    ((deposits.filter (fun d => d.offset ≠ 0)).map (Deposit.scale times)).find?
        (fun d => s.Misses d) =
      (deposits.find? (fun d => s.Misses d)).map (Deposit.scale times) := by
  induction deposits with
  | nil => rfl
  | cons d deposits ih =>
    by_cases hzero : d.offset = 0
    · have hhit : ¬ s.Misses d := by
        rw [Misses, hzero]
        exact fun hoff => hoff hon
      rw [List.filter_cons_of_neg (by simpa using hzero),
        List.find?_cons_of_neg (by simpa using hhit), ih]
    · rw [List.filter_cons_of_pos (by simpa using hzero), List.map_cons]
      by_cases hmiss : s.Misses d
      · have hmiss' : s.Misses (d.scale times) := hmiss
        rw [List.find?_cons_of_pos (by simpa using hmiss'),
          List.find?_cons_of_pos (by simpa using hmiss)]
        rfl
      · have hmiss' : ¬ s.Misses (d.scale times) := hmiss
        rw [List.find?_cons_of_neg (by simpa using hmiss'),
          List.find?_cons_of_neg (by simpa using hmiss), ih]

end Store

namespace Instruction

variable {w : Width} {s s₁ : Store}

/-- A product is a deposit, as many times as the current cell says. -/
theorem effect_product {d : Deposit} {value : Nat} (hd : d.offset ≠ 0)
    (hcell : s.cell 0 none = .ok value) :
    d.product.effect w s = s.deposit w (d.scale value) := by
  have hcell' : s.cell 0 d.position = .ok value := Tree.cell_eq_ok_of_cell d.position hcell
  simp [effect, Deposit.product, hd, hcell', bind, Except.bind, Store.deposit, Deposit.scale,
    w.add_mul_truncate]

/-- A deposit elsewhere leaves the current cell alone. -/
theorem cell_of_deposit {d : Deposit} {value : Nat} (hrange : Operand.InRange d.offset)
    (hd : d.offset ≠ 0) (hcell : s.cell 0 none = .ok value) (h : s.deposit w d = .ok s₁) :
    s₁.cell 0 none = .ok value := by
  rw [Store.deposit, Store.update_eq_setCell] at h
  obtain ⟨hon, rfl⟩ := Store.setCell_eq_ok_iff.1 h
  obtain ⟨hown, hvalue⟩ := Store.cell_eq_ok_iff.1 hcell
  refine Store.cell_eq_ok_iff.2 ⟨?_, ?_⟩
  · rw [Store.onTape_withTape (by simp)]
    exact hown
  · simp only [Store.address_withTape]
    rw [Store.getD_setIfInBounds_ne (Store.toNat_address_ne hrange hd hon hown), hvalue]

/-- **The products make the deposits of the body, except those to the counter,
as many times as the counter says.** -/
theorem effects_products {deposits : List Deposit} {value : Nat}
    (hrange : ∀ d ∈ deposits, Operand.InRange d.offset) (hcell : s.cell 0 none = .ok value) :
    effects w ((deposits.filter (fun d => d.offset ≠ 0)).map Deposit.product) s =
      s.depositAll w ((deposits.filter (fun d => d.offset ≠ 0)).map (Deposit.scale value)) := by
  induction deposits generalizing s with
  | nil => rfl
  | cons d deposits ih =>
    obtain ⟨hd, hrange⟩ := List.forall_mem_cons.1 hrange
    by_cases hzero : d.offset = 0
    · rw [List.filter_cons_of_neg (by simpa using hzero)]
      exact ih hrange hcell
    · rw [List.filter_cons_of_pos (by simpa using hzero), List.map_cons, List.map_cons,
        effects_cons, Store.depositAll_cons, effect_product hzero hcell]
      cases h : s.deposit w (d.scale value) with
      | error c => rfl
      | ok s₁ => exact ih hrange (cell_of_deposit (d := d.scale value) hd hzero hcell h)

end Instruction

end TapeCompiler
