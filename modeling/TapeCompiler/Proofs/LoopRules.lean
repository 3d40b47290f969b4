/-
TapeCompiler.Proofs.LoopRules — the rules of the flattener, one by one.

Each rule replaces a small piece of a tree, and each is proved to be a
refinement: what the old piece comes to, the new one comes to as well, with
the same store or at the same cell beyond the tape.

* A loop on a zero cell does nothing (`Tree.refines_dead`).
* A loop that only walks is a scan, and one that writes and walks prints
  (`Tree.refines_scan`, `Tree.refines_print`).
* A loop over one cell step clears the cell, if it ends at all, and makes
  a store to that cell before it pointless; a step behind it makes it a
  store (`Tree.refines_clear`, `Tree.refines_absorb`, `Tree.refines_fold`).
* A loop that counts its cell down one by one makes its deposits as often
  as the cell says (`Tree.refines_multiply`).
-/
import TapeCompiler.Proofs.Deposits

namespace TapeCompiler

/-! ## 1. Clearing -/

/-- The instruction that clears the current cell. -/
def Instruction.clearing (position : Option Position) : Instruction := ⟨.mul, -1, 0, position⟩

namespace Instruction

theorem plain_clearing (position : Option Position) : (clearing position).Plain := ⟨rfl, rfl⟩

@[simp] theorem effect_clearing (w : Width) (s : Store) (position : Option Position) :
    (clearing position).effect w s = s.setCell 0 0 position := by
  simp [effect, clearing]

theorem IsCellStep.overwritten {i : Instruction} (h : i.IsCellStep) :
    Flattener.overwritten i = true := by
  rcases h with h | h <;> simp [Flattener.overwritten, h]

/-- What a clear undoes only sets the current cell. -/
theorem effect_overwritten {i : Instruction} (h : Flattener.overwritten i = true) (w : Width)
    (s : Store) : ∃ value, i.effect w s = s.setCell 0 value i.position := by
  unfold Flattener.overwritten at h
  split at h
  · rename_i hop
    exact ⟨_, by rw [effect_cellStep (.inl hop), Store.update_eq_setCell]⟩
  · rename_i hop
    exact ⟨_, by rw [effect_cellStep (.inr hop), Store.update_eq_setCell]⟩
  · rename_i hop
    have hoffset : i.offset = 0 := by simpa using h
    exact ⟨w.truncate i.value, by simp [effect, hop, hoffset]⟩
  · cases h

end Instruction

namespace Store

theorem setCell_of_onTape {s : Store} {offset : Int} (value : Nat) (position : Option Position)
    (h : s.OnTape (s.address offset)) :
    s.setCell offset value position =
      .ok { s with tape := s.tape.setIfInBounds (s.address offset).toNat value } :=
  setCell_eq_ok_iff.2 ⟨h, rfl⟩

theorem setCell_of_not_onTape {s : Store} {offset : Int} (value : Nat)
    (position : Option Position) (h : ¬ s.OnTape (s.address offset)) :
    s.setCell offset value position =
      .error ⟨.outOfBounds (s.address offset) position, s.sink⟩ :=
  setCell_eq_error_iff.2 ⟨h, rfl⟩

/-- Setting a cell twice is setting it once. -/
theorem setCell_setCell {s s₁ : Store} {offset : Int} {value : Nat} {position : Option Position}
    (h : s.setCell offset value position = .ok s₁) (value' : Nat) (position' : Option Position) :
    s₁.setCell offset value' position' = s.setCell offset value' position' := by
  obtain ⟨hon, rfl⟩ := setCell_eq_ok_iff.1 h
  rw [setCell_of_onTape value' position' hon]
  refine setCell_eq_ok_iff.2 ⟨?_, ?_⟩
  · rw [onTape_withTape (by simp)]
    exact hon
  · simp only [address_withTape, Array.setIfInBounds_setIfInBounds]

/-- Setting a cell to what it holds changes nothing. -/
theorem setCell_of_cell {s : Store} {offset : Int} {value : Nat} {position : Option Position}
    (position' : Option Position) (h : s.cell offset position = .ok value) :
    s.setCell offset value position' = .ok s := by
  obtain ⟨hon, rfl⟩ := cell_eq_ok_iff.1 h
  refine setCell_eq_ok_iff.2 ⟨hon, ?_⟩
  rw [setIfInBounds_getD]

/-- The set cell holds what it was set to. -/
theorem cell_of_setCell {s s₁ : Store} {offset : Int} {value : Nat} {position : Option Position}
    (position' : Option Position) (h : s.setCell offset value position = .ok s₁) :
    s₁.cell offset position' = .ok value := by
  obtain ⟨hon, rfl⟩ := setCell_eq_ok_iff.1 h
  refine cell_eq_ok_iff.2 ⟨?_, ?_⟩
  · rw [onTape_withTape (by simp)]
    exact hon
  · simp only [address_withTape]
    exact getD_setIfInBounds_self hon.2 value

end Store

namespace Tree

variable {w : Width} {zero : Bool} {start close i : Instruction} {closes : close.Closes start}
  {body rest : Tree} {position : Option Position}

/-- A loop on a zero cell does nothing. -/
theorem refines_dead : Refines w true (block start body close closes rest) rest := by
  intro s e _ hz hexec
  have hzero := cell_eq_ok_of_cell start.position (hz rfl)
  cases hexec with
  | testFails hcell => simp [hzero] at hcell
  | skip _ hrest => exact hrest
  | bodyFails hcell => simp [hzero] at hcell
  | loop _ hcell => simp [hzero] at hcell
  | guard _ hcell => simp [hzero] at hcell

/-- A setting of the current cell before it is cleared is pointless. -/
theorem refines_absorb {plain : i.Plain} {plain' : (Instruction.clearing position).Plain}
    (h : Flattener.overwritten i = true) :
    Refines w zero (step i plain (step (.clearing position) plain' rest))
      (step (.clearing position) plain' rest) := by
  intro s e _ _ hexec
  obtain ⟨value, hi⟩ := Instruction.effect_overwritten h w s
  cases hexec with
  | step heffect hrest =>
    rw [hi] at heffect
    have hsame := Store.setCell_setCell heffect 0 position
    cases hrest with
    | step heffect' hrest' =>
      rw [Instruction.effect_clearing, hsame] at heffect'
      exact .step (by rw [Instruction.effect_clearing, heffect']) hrest'
    | stepFails heffect' =>
      rw [Instruction.effect_clearing, hsame] at heffect'
      exact .stepFails (by rw [Instruction.effect_clearing, heffect'])
  | stepFails heffect =>
    rw [hi] at heffect
    obtain ⟨hoff, rfl⟩ := Store.setCell_eq_error_iff.1 heffect
    exact .stepFails (c := ⟨.outOfBounds (s.address 0) position, s.sink⟩)
      (by rw [Instruction.effect_clearing, Store.setCell_of_not_onTape 0 position hoff])

/-- A step of a cell that was just cleared stores a constant. -/
theorem refines_fold {plain : (Instruction.clearing position).Plain} {plain' : i.Plain}
    {plain'' : (⟨.store, i.amount, 0, i.position⟩ : Instruction).Plain} (h : i.IsCellStep) :
    Refines w zero (step (.clearing position) plain (step i plain' rest))
      (step ⟨.store, i.amount, 0, i.position⟩ plain'' rest) := by
  intro s e _ _ hexec
  have hstore : Instruction.effect ⟨.store, i.amount, 0, i.position⟩ w s =
      s.setCell 0 (w.truncate i.amount) i.position := rfl
  cases hexec with
  | @step _ _ _ _ s₁ _ heffect hrest =>
    rw [Instruction.effect_clearing] at heffect
    have hcell := Store.cell_of_setCell i.position heffect
    have hi : i.effect w s₁ = s.setCell 0 (w.truncate i.amount) i.position := by
      obtain ⟨-, hvalue⟩ := Store.cell_eq_ok_iff.1 hcell
      rw [Instruction.effect_cellStep h, Store.update_eq_setCell, hvalue,
        Store.setCell_setCell heffect]
      simp
    cases hrest with
    | step heffect' hrest' =>
      rw [hi] at heffect'
      exact .step (hstore.trans heffect') hrest'
    | stepFails heffect' =>
      rw [hi] at heffect'
      exact .stepFails (hstore.trans heffect')
  | stepFails heffect =>
    rw [Instruction.effect_clearing] at heffect
    obtain ⟨hoff, rfl⟩ := Store.setCell_eq_error_iff.1 heffect
    exact .stepFails (c := ⟨.outOfBounds (s.address 0) i.position, s.sink⟩)
      (hstore.trans (Store.setCell_of_not_onTape _ i.position hoff))

/-- A loop over one cell step clears the cell, if it ends. -/
theorem refines_clear {plain : (Instruction.clearing position).Plain}
    (hkind : start.opcode = .loopStart) (hcode : body.code = [i]) (h : i.IsCellStep) :
    Refines w zero (block start body close closes rest)
      (step (.clearing position) plain rest) := by
  intro s e _ _ hexec
  obtain ⟨s₁, hrounds, hlast⟩ := (exec_loop_iff hkind).1 hexec
  have hbody {s : Store} {e : Ending} : Exec w body s e ↔ Ending.of (i.effect w s) = e :=
    exec_single_iff hcode h.plain
  -- no round changes what the clear makes of the store
  have hsame : s₁.setCell 0 0 position = s.setCell 0 0 position := by
    clear hlast
    induction hrounds with
    | refl => rfl
    | @tail s₂ s₃ _ hround ih =>
      obtain ⟨value, hi⟩ := Instruction.effect_overwritten h.overwritten w s₂
      have hdone := Ending.of_eq_done_iff.1 (hbody.1 hround.done)
      rw [← ih]
      exact Store.setCell_setCell (hi.symm.trans hdone) 0 position
  cases hlast with
  | zero test hrest =>
    have hclear := Store.setCell_of_cell position test
    exact .step (by rw [Instruction.effect_clearing, ← hsame, hclear]) hrest
  | offTape off =>
    have hclear := Store.setCell_of_not_onTape 0 position off
    exact .stepFails (c := ⟨.outOfBounds (s₁.address 0) position, s₁.sink⟩)
      (by rw [Instruction.effect_clearing, ← hsame, hclear])
  | fails test hfails failed =>
    obtain ⟨value, hi⟩ := Instruction.effect_overwritten h.overwritten w s₁
    have hon := (Store.cell_eq_ok_iff.1 test).1
    rw [← hbody.1 hfails, hi, Store.setCell_of_onTape value i.position hon] at failed
    exact absurd failed id

end Tree

/-! ## 2. Scanning and printing -/

namespace Store

/-- A scan ends on a zero cell. -/
theorem cell_of_scan {s s₁ : Store} {direction : Direction} {position : Option Position}
    (h : s.scan direction position = .ok s₁) : s₁.cell 0 none = .ok 0 := by
  fun_induction scan s direction position with
  | case1 => cases h
  | case2 s hcell =>
    cases h
    exact Tree.cell_eq_ok_of_cell none hcell
  | case3 _ _ _ _ _ ih => exact ih h

/-- Printing ends on a zero cell. -/
theorem cell_of_printRun {s s₁ : Store} {position : Option Position}
    (h : s.printRun position = .ok s₁) : s₁.cell 0 none = .ok 0 := by
  fun_induction printRun s position with
  | case1 => cases h
  | case2 s hcell =>
    obtain ⟨-, rfl⟩ := flush_eq_ok_iff.1 h
    exact Tree.cell_eq_ok_of_cell none hcell
  | case3 => cases h
  | case4 _ _ _ _ _ _ _ ih => exact ih h

end Store

namespace Tree

variable {w : Width} {zero : Bool} {start close i : Instruction} {closes : close.Closes start}
  {body rest : Tree} {position : Option Position}

/-- A loop that walks cell by cell is a scan. -/
theorem refines_scan (direction : Direction) {j : Instruction} {plain : j.Plain}
    (hkind : start.opcode = .loopStart) (hcode : body.code = [i]) (hi : i.Plain)
    (hwalk : ∀ s, i.effect w s = .ok (s.move direction.step))
    (hscan : ∀ s, j.effect w s = s.scan direction j.position) :
    Refines w zero (block start body close closes rest) (step j plain rest) := by
  intro s e _ _ hexec
  obtain ⟨s₁, hrounds, hlast⟩ := (exec_loop_iff hkind).1 hexec
  have hsame : s.scan direction j.position = s₁.scan direction j.position := by
    clear hlast
    induction hrounds with
    | refl => rfl
    | @tail s₂ s₃ _ hround ih =>
      obtain ⟨value, test⟩ := hround.test
      have hdone := (exec_single_iff hcode hi).1 hround.done
      rw [hwalk, Ending.of_ok, Ending.done.injEq] at hdone
      rw [ih, Store.scan_of_succ (cell_eq_ok_of_cell _ test), hdone]
  cases hlast with
  | zero test hrest =>
    have hzero := Store.scan_of_zero (cell_eq_ok_of_cell j.position test) direction
    exact .step (by rw [hscan, hsame, hzero]) hrest
  | offTape off =>
    have herror := cell_eq_error_of_not_onTape j.position off
    exact .stepFails (c := ⟨.outOfBounds (s₁.address 0) j.position, s₁.sink⟩)
      (by rw [hscan, hsame, Store.scan_of_error herror])
  | fails _ hfails failed =>
    rw [← (exec_single_iff hcode hi).1 hfails, hwalk] at failed
    exact absurd failed id

/-- One round of a print loop writes the cell and goes on to the next. -/
theorem effects_print {out next : Instruction} (hout : out.opcode = .write) (hcount : out.value = 1)
    (hnext : next.opcode = .right) (hstep : next.value = 1) {s : Store} {value : Nat}
    (hs : s.Regular w) (test : s.cell 0 none = .ok value) :
    Instruction.effects w [out, next] s =
      .ok (({ s with sink := s.sink.push (UInt8.ofNat value) } : Store).move 1) := by
  have hwritten := hs.changes (Store.changes_of_emit (w := w) (hs.emit_eq value))
  have hcell := cell_eq_ok_of_cell out.position test
  simp [Instruction.effects, Instruction.effect, hout, hcount, hnext, hstep, Store.writeTimes,
    hcell, hs.emit_eq, hwritten.flush_eq, Instruction.displacement, bind, Except.bind, pure,
    Except.pure]

/-- A loop that writes and walks to the right prints. -/
theorem refines_print {out next j : Instruction} {plain : j.Plain}
    (hkind : start.opcode = .loopStart) (hcode : body.code = [out, next])
    (hout : out.opcode = .write) (hcount : out.value = 1) (hnext : next.opcode = .right)
    (hstep : next.value = 1) (hj : j.opcode = .printRun) :
    Refines w zero (block start body close closes rest) (step j plain rest) := by
  intro s e hs _ hexec
  obtain ⟨s₁, hrounds, hlast⟩ := (exec_loop_iff hkind).1 hexec
  have hs₁ := Rounds.regular hrounds hs
  have hplain : ∀ i ∈ [out, next], i.Plain := by
    simp [Instruction.Plain, hout, hnext, Opcode.opensBlock, Opcode.closesBlock]
  have hprint (s : Store) : j.effect w s = s.printRun j.position := by
    simp [Instruction.effect, hj]
  have hsame : s.printRun j.position = s₁.printRun j.position := by
    clear hlast hs₁
    induction hrounds with
    | refl => rfl
    | @tail s₂ s₃ hrounds hround ih =>
      obtain ⟨value, test⟩ := hround.test
      have hs₂ := Rounds.regular hrounds hs
      have hdone := (exec_straight_iff hcode hplain).1 hround.done
      rw [effects_print hout hcount hnext hstep hs₂ test, Ending.of_ok, Ending.done.injEq] at hdone
      rw [ih, Store.printRun_of_succ (cell_eq_ok_of_cell _ test) (hs₂.emit_eq _), hdone]
  cases hlast with
  | zero test hrest =>
    have hzero := Store.printRun_of_zero (cell_eq_ok_of_cell j.position test)
    exact .step (by rw [hprint, hsame, hzero, hs₁.flush_eq]) hrest
  | offTape off =>
    have herror := cell_eq_error_of_not_onTape j.position off
    exact .stepFails (c := ⟨.outOfBounds (s₁.address 0) j.position, s₁.sink⟩)
      (by rw [hprint, hsame, Store.printRun_of_error herror])
  | fails test hfails failed =>
    rw [← (exec_straight_iff hcode hplain).1 hfails,
      effects_print hout hcount hnext hstep hs₁ test] at failed
    exact absurd failed id

end Tree

/-! ## 3. Counting down -/

namespace Store

/-- The store after some rounds of the same deposits. -/
def after (w : Width) (deposits : List Deposit) (rounds : Nat) (s : Store) : Store :=
  { s with tape := w.raise (fun index => rounds * s.total deposits index) s.tape }

variable {w : Width} {deposits : List Deposit} {s : Store}

theorem after_zero (hcells : ∀ value ∈ s.tape, value ≤ w.mask) :
    s.after w deposits 0 = s := by
  have hnone : (fun index => ((0 : Nat) : Int) * s.total deposits index) = fun _ => 0 := by
    funext index
    simp
  rw [after, hnone, Width.raise_zero hcells]

/-- One more round, if no deposit lies beyond the tape. -/
theorem depositAll_after (rounds : Nat) :
    (s.after w deposits rounds).depositAll w deposits =
      match deposits.find? (fun d => s.Misses d) with
      | some d => .error ⟨.outOfBounds (s.address d.offset) d.position, s.sink⟩
      | none => .ok (s.after w deposits (rounds + 1)) := by
  rw [depositAll_eq (Width.le_mask_of_mem_raise _)]
  unfold after
  simp only [misses_withTape (Width.size_raise _), address_withTape, total_withTape,
    Width.raise_raise]
  cases deposits.find? (fun d => s.Misses d) with
  | some d => rfl
  | none => simp only [Int.natCast_add, Int.natCast_one, Int.add_mul, Int.one_mul]

theorem find?_misses_eq_none_iff :
    deposits.find? (fun d => s.Misses d) = none ↔ ∀ d ∈ deposits, ¬ s.Misses d := by
  simp

/-- The counter goes down by the same amount in every round. -/
theorem cell_after {value rounds drop : Nat} (hcells : ∀ value ∈ s.tape, value ≤ w.mask)
    (hrange : ∀ d ∈ deposits, Operand.InRange d.offset) (hhit : ∀ d ∈ deposits, ¬ s.Misses d)
    (hshare : ownShare deposits = -drop) (hcell : s.cell 0 none = .ok value)
    (hle : rounds * drop ≤ value) :
    (s.after w deposits rounds).cell 0 none = .ok (value - rounds * drop) := by
  obtain ⟨hon, rfl⟩ := cell_eq_ok_iff.1 hcell
  refine cell_eq_ok_iff.2 ⟨?_, ?_⟩
  · exact (onTape_withTape (Width.size_raise _) _).2 hon
  · have hlt := Width.getD_lt hcells (s.address 0).toNat
    simp only [after, address_withTape]
    rw [Width.getD_raise _ hon.2, total_own hrange hhit hon, hshare]
    rw [← w.truncate_of_lt (Nat.lt_of_le_of_lt (Nat.sub_le _ (rounds * drop)) hlt)]
    congr 1
    rw [Int.mul_neg, Int.natCast_sub hle, Int.natCast_mul]
    omega

/-- The number of rounds is no greater than the counter was, so it fits. -/
theorem le_mask_of_setRounds {rounds drop : Nat} (hcells : ∀ value ∈ s.tape, value ≤ w.mask)
    (hdrop : 0 < drop) (hcell : s.cell 0 none = .ok (rounds * drop)) {s₁ : Store}
    {position : Option Position} (hset : s.setCell 0 rounds position = .ok s₁) :
    ∀ value ∈ s₁.tape, value ≤ w.mask := by
  obtain ⟨-, hvalue⟩ := cell_eq_ok_iff.1 hcell
  obtain ⟨-, rfl⟩ := setCell_eq_ok_iff.1 hset
  intro value hmem
  rcases Array.mem_or_eq_of_mem_setIfInBounds hmem with hmem | rfl
  · exact hcells value hmem
  · have hlt := Width.getD_lt hcells (s.address 0).toNat
    rw [hvalue] at hlt
    exact Nat.le_sub_one_of_lt (Nat.lt_of_le_of_lt (Nat.le_mul_of_pos_right _ hdrop) hlt)

/-- The products and a clear of the counter do the work of all rounds, once
the counter has been set to the number of rounds. -/
theorem products_then_clear {rounds drop : Nat} (hcells : ∀ value ∈ s.tape, value ≤ w.mask)
    (hrange : ∀ d ∈ deposits, Operand.InRange d.offset) (hhit : ∀ d ∈ deposits, ¬ s.Misses d)
    (hshare : ownShare deposits = -drop) (hdrop : 0 < drop)
    (hcell : s.cell 0 none = .ok (rounds * drop)) {s₁ : Store} {position₁ : Option Position}
    (hset : s.setCell 0 rounds position₁ = .ok s₁) (position : Option Position) :
    ∃ s₂, s₁.depositAll w ((deposits.filter (fun d => d.offset ≠ 0)).map (Deposit.scale rounds)) =
        .ok s₂ ∧ s₂.setCell 0 0 position = .ok (s.after w deposits rounds) := by
  obtain ⟨hon, hvalue⟩ := cell_eq_ok_iff.1 hcell
  have hcells₁ := le_mask_of_setRounds hcells hdrop hcell hset
  obtain ⟨-, rfl⟩ := setCell_eq_ok_iff.1 hset
  have hnone := find?_misses_eq_none_iff.2 hhit
  have hsize : (s.tape.setIfInBounds (s.address 0).toNat rounds).size = s.tape.size := by simp
  rw [depositAll_eq hcells₁]
  simp only [misses_withTape hsize, total_withTape, find?_products rounds deposits hon, hnone,
    Option.map_none]
  refine ⟨_, rfl, ?_⟩
  have hon₂ (tape : Array Nat) (hsize : tape.size = s.tape.size) :
      OnTape { s with tape } (address { s with tape } 0) := (onTape_withTape hsize _).2 hon
  rw [setCell_of_onTape 0 position (hon₂ _ (by simp))]
  simp only [address_withTape, after, Width.setIfInBounds_raise_setIfInBounds]
  rw [Width.setIfInBounds_raise (fun other hne => total_products rounds deposits hne)]
  rw [total_own hrange hhit hon, hshare, hvalue, ← w.truncate_of_lt w.modulus_pos]
  congr 1
  rw [Int.natCast_mul, Int.mul_neg]
  omega

end Store

/-- A body whose pointer comes back has the effect of its deposits. -/
theorem Instruction.effects_eq_depositAll {w : Width} {body : List Instruction}
    (hfinal : finalPointer? 0 body = .ok (some 0)) {s : Store}
    (hcells : ∀ value ∈ s.tape, value ≤ w.mask) (hpointer : Operand.InRange s.pointer) :
    effects w body s = s.depositAll w (deposits 0 body) := by
  have hstay (tape : Array Nat) : ({ s with tape } : Store).move 0 = { s with tape } := by
    simp [Store.move, Operand.wrap_of_inRange hpointer]
  have heffects := effects_of_finalPointer hfinal w s
  rw [hstay s.tape, Store.depositAll_eq hcells] at heffects
  rw [heffects, Store.depositAll_eq hcells]
  split
  · rfl
  · simp only [Except.map, hstay]

namespace Tree

variable {w : Width} {zero : Bool} {start close : Instruction} {closes : close.Closes start}
  {body rest : Tree} {position : Option Position}

/-- A body whose pointer comes back only makes its deposits. -/
theorem exec_deposits_iff (hfinal : finalPointer? 0 body.code = .ok (some 0)) {s : Store}
    (hs : s.Regular w) {e : Ending} :
    Exec w body s e ↔ Ending.of (s.depositAll w (deposits 0 body.code)) = e := by
  rw [exec_straight_iff rfl (plain_of_finalPointer hfinal),
    Instruction.effects_eq_depositAll hfinal hs.cells hs.pointer]

/-- Where the rounds of a counting loop lead. -/
theorem after_of_rounds (hfinal : finalPointer? 0 body.code = .ok (some 0))
    (hdrop : counterDrop? 0 0 body.code = .ok (some 1)) {s s₁ : Store} {value : Nat}
    (hs : s.Regular w) (hcell : s.cell 0 none = .ok value) (h : Rounds w body s s₁) :
    ∃ rounds ≤ value, s₁ = s.after w (deposits 0 body.code) rounds ∧
      (0 < rounds → ∀ d ∈ deposits 0 body.code, ¬ s.Misses d) := by
  have hshare : ownShare (deposits 0 body.code) = -(1 : Nat) := ownShare_of_counterDrop hdrop
  have hrange : ∀ d ∈ deposits 0 body.code, Operand.InRange d.offset :=
    fun d hd => inRange_of_mem_deposits hfinal (by decide) hd
  induction h with
  | refl =>
    exact ⟨0, Nat.zero_le _, (Store.after_zero hs.cells).symm, fun h => absurd h (by decide)⟩
  | @tail s₂ s₃ hrounds hround ih =>
    obtain ⟨rounds, hle, rfl, -⟩ := ih
    have hs₂ := Rounds.regular hrounds hs
    have hdone := Ending.of_eq_done_iff.1 ((exec_deposits_iff hfinal hs₂).1 hround.done)
    rw [Store.depositAll_after rounds] at hdone
    split at hdone
    · cases hdone
    · rename_i hhit
      cases hdone
      rw [Store.find?_misses_eq_none_iff] at hhit
      refine ⟨rounds + 1, ?_, rfl, fun _ => hhit⟩
      -- the round was entered, so the counter was not down to zero
      obtain ⟨left, test⟩ := hround.test
      rw [Store.cell_after hs.cells hrange hhit hshare hcell (by simpa using hle),
        Nat.mul_one, Except.ok.injEq] at test
      omega

/-- **A loop that counts its cell down one by one is a guarded product.** -/
theorem refines_multiply {start' close' : Instruction} {closes' : close'.Closes start'}
    {terms : List Instruction} {hplain : ∀ i ∈ terms, i.Plain}
    {plain : (Instruction.clearing position).Plain} (hkind : start.opcode = .loopStart)
    (hkind' : start'.opcode = .guard) (hfinal : finalPointer? 0 body.code = .ok (some 0))
    (hdrop : counterDrop? 0 0 body.code = .ok (some 1))
    (hterms : products 0 [] body.code = .ok terms) :
    Refines w zero (block start body close closes rest)
      (block start' (prepend terms hplain done) close' closes'
        (step (.clearing position) plain rest)) := by
  intro s e hs _ hexec
  have hshare : ownShare (deposits 0 body.code) = -(1 : Nat) := ownShare_of_counterDrop hdrop
  have hrange : ∀ d ∈ deposits 0 body.code, Operand.InRange d.offset :=
    fun d hd => inRange_of_mem_deposits hfinal (by decide) hd
  have hlist : ((deposits 0 body.code).filter (fun d => d.offset ≠ 0)).map Deposit.product =
      terms := by simpa using (products_eq hterms).symm
  have hproducts {s : Store} {e : Ending} :
      Exec w (prepend terms hplain done) s e ↔ Ending.of (Instruction.effects w terms s) = e :=
    exec_straight_iff (by simp) hplain
  obtain ⟨s₁, hrounds, hlast⟩ := (exec_loop_iff hkind).1 hexec
  cases hcell : s.cell 0 none with
  | error c =>
    -- the loop was not entered, so it ended at the first test
    obtain rfl : s = s₁ := by
      rcases Relation.ReflTransGen.cases_head hrounds with rfl | ⟨_, hround, _⟩
      · rfl
      · obtain ⟨value, test⟩ := hround.test
        simp [hcell] at test
    cases hlast with
    | zero test => simp [hcell] at test
    | offTape off => exact .testFails (cell_eq_error_of_not_onTape start'.position off)
    | fails test => simp [hcell] at test
  | ok value =>
    obtain ⟨rounds, hle, rfl, hhits⟩ := after_of_rounds hfinal hdrop hs hcell hrounds
    have hentry := cell_eq_ok_of_cell start'.position hcell
    have heffects := Instruction.effects_products (w := w) hrange hcell
    rw [hlist] at heffects
    cases hlast with
    | offTape off =>
      have hon := (Store.cell_eq_ok_iff.1 hcell).1
      exact absurd ((Store.onTape_withTape (Width.size_raise _) _).2 hon) off
    | zero test hrest =>
      cases value with
      | zero =>
        obtain rfl : rounds = 0 := by omega
        rw [Store.after_zero hs.cells] at hrest
        have hclear := Store.setCell_of_cell position hcell
        exact .skip hentry (.step (by rw [Instruction.effect_clearing, hclear]) hrest)
      | succ value =>
        have hpos : 0 < rounds := by
          rcases Nat.eq_zero_or_pos rounds with rfl | hpos
          · simp [Store.after_zero hs.cells, hcell] at test
          · exact hpos
        have hhit := hhits hpos
        rw [Store.cell_after hs.cells hrange hhit hshare hcell (by simpa using hle),
          Nat.mul_one, Except.ok.injEq] at test
        obtain rfl : rounds = value + 1 := by omega
        obtain ⟨s₂, hdeposits, hclear⟩ :=
          Store.products_then_clear hs.cells hrange hhit hshare Nat.one_pos (by simpa using hcell)
            (Store.setCell_of_cell none hcell) position
        exact .guard hkind' hentry (hproducts.2 (by rw [heffects, hdeposits]; rfl))
          (.step (by rw [Instruction.effect_clearing, hclear]) hrest)
    | @fails e left test hfails failed =>
      have hs₁ := Rounds.regular hrounds hs
      have hcrash := (exec_deposits_iff hfinal hs₁).1 hfails
      rw [Store.depositAll_after rounds] at hcrash
      split at hcrash
      · rename_i d hd
        -- a deposit beyond the tape fails in the first round
        obtain rfl : rounds = 0 := by
          refine Nat.eq_zero_of_not_pos fun hpos => ?_
          simp [Store.find?_misses_eq_none_iff.2 (hhits hpos)] at hd
        rw [Store.after_zero hs.cells, hcell, Except.ok.injEq] at test
        subst test
        refine .bodyFails hentry (hproducts.2 ?_) failed
        have hon := (Store.cell_eq_ok_iff.1 hcell).1
        rw [heffects, Store.depositAll_eq hs.cells, Store.find?_products _ _ hon, hd, ← hcrash]
        rfl
      · rw [← hcrash] at failed
        exact absurd failed id

end Tree

end TapeCompiler
