/-
TapeCompiler.Proofs.DivisionLoops — counters that go down by more than one.

A loop whose counter goes down by `drop` in each round ends by itself only
if the counter is a multiple of `drop`. Then it makes as many rounds as the
quotient says, and that is what the flattened code computes first:

    guard n;  div drop at 0;  mul … at …;  label n;  mul -1 at 0

`Stream.CountsDown` says which bodies these are, in terms of the body alone.
The verdict on such a body is a multiplication (`Stream.CountsDown.verdict`),
and both the loop and its replacement lead to the store after that many
rounds, or fail at the first deposit beyond the tape
(`Tree.eval_countdown`, `Tree.eval_quotient`).
-/
import TapeCompiler.Proofs.ControlFlow
import TapeCompiler.Proofs.FlattenPass

namespace TapeCompiler

/-! ## 1. Bodies that count down -/

namespace Stream

/-- The instructions of a body, each with the distance of the pointer from
where the body started. -/
def placed (pointer : Int) : List Instruction → List (Int × Instruction)
  | [] => []
  | i :: rest =>
    (pointer, i) :: placed (if i.movesPointer then pointer + i.amount else pointer) rest

/-- What the `sub` instructions of a body take from the cell it started on. -/
def lowering (pointer : Int) (body : List Instruction) : Int :=
  (((placed pointer body).filter (fun x => x.1 = 0 ∧ x.2.opcode = .sub)).map
    (fun x => x.2.value)).sum

/-- How far a body moves the pointer to the right. -/
def distance (body : List Instruction) : Int :=
  ((body.filter Instruction.movesPointer).map Instruction.amount).sum

/-- A body of steps that brings the pointer back and lowers the cell it
started on by `drop`, without ever raising it. -/
structure CountsDown (body : List Instruction) (drop : Int) : Prop where
  steps : ∀ i ∈ body, i.IsCellStep ∨ i.IsMove
  returns : distance body = 0
  several : ∀ i, body = [i] → ¬ i.IsCellStep
  never_raised : ∀ i, (0, i) ∈ placed 0 body → i.opcode ≠ .add
  lowered : lowering 0 body = drop

section Placed

variable {i : Instruction} (pointer : Int) (rest : List Instruction)

theorem placed_of_cellStep (h : i.IsCellStep) :
    placed pointer (i :: rest) = (pointer, i) :: placed pointer rest := by
  rcases h with h | h <;> simp [placed, Instruction.movesPointer, h]

theorem placed_of_move (h : i.IsMove) :
    placed pointer (i :: rest) = (pointer, i) :: placed (pointer + i.amount) rest := by
  rcases h with h | h <;> simp [placed, Instruction.movesPointer, h]

theorem lowering_of_move (h : i.IsMove) :
    lowering pointer (i :: rest) = lowering (pointer + i.amount) rest := by
  unfold lowering
  rw [placed_of_move pointer rest h, List.filter_cons]
  rcases h with h | h <;> simp [h]

theorem lowering_of_cellStep (h : i.IsCellStep) :
    lowering pointer (i :: rest) =
      (if pointer = 0 ∧ i.opcode = .sub then i.value else 0) + lowering pointer rest := by
  unfold lowering
  rw [placed_of_cellStep pointer rest h, List.filter_cons]
  by_cases hsub : pointer = 0 ∧ i.opcode = .sub <;> simp [hsub]

theorem distance_of_cellStep (h : i.IsCellStep) : distance (i :: rest) = distance rest := by
  rcases h with h | h <;> simp [distance, Instruction.movesPointer, h]

theorem distance_of_move (h : i.IsMove) : distance (i :: rest) = i.amount + distance rest := by
  rcases h with h | h <;> simp [distance, Instruction.movesPointer, h]

end Placed

/-- Where the pointer of a body of steps ends. -/
theorem final_of_finalPointer {body : List Instruction}
    (hsteps : ∀ i ∈ body, i.IsCellStep ∨ i.IsMove) {pointer : Int} {final : Option Int}
    (h : finalPointer? pointer body = .ok final) : final = some (pointer + distance body) := by
  induction body generalizing pointer with
  | nil =>
    cases h
    simp [distance]
  | cons i rest ih =>
    obtain ⟨hi, hsteps⟩ := List.forall_mem_cons.1 hsteps
    rcases hi with hi | hi
    · rw [distance_of_cellStep rest hi]
      refine ih hsteps ?_
      rcases hi with hi | hi <;> simpa only [finalPointer?, hi] using h
    · rw [distance_of_move rest hi, ← Int.add_assoc]
      rcases hi with hop | hop
      · simp only [finalPointer?, hop] at h
        exact ih hsteps (pointer_of_displacement (.inl hop) h).2.2
      · simp only [finalPointer?, hop] at h
        exact ih hsteps (pointer_of_displacement (.inr hop) h).2.2

/-- What the counter of a body of steps loses, if it is never raised. -/
theorem drop_of_counterDrop {body : List Instruction}
    (hsteps : ∀ i ∈ body, i.IsCellStep ∨ i.IsMove) {pointer drop : Int} {result : Option Int}
    (hraised : ∀ i, (0, i) ∈ placed pointer body → i.opcode ≠ .add)
    (h : counterDrop? pointer drop body = .ok result) :
    result = some (drop + lowering pointer body) := by
  induction body generalizing pointer drop with
  | nil =>
    cases h
    simp [lowering, placed]
  | cons i rest ih =>
    obtain ⟨hi, hsteps⟩ := List.forall_mem_cons.1 hsteps
    rcases hi with hi | hi
    · rw [placed_of_cellStep pointer rest hi] at hraised
      have hrest : ∀ j, (0, j) ∈ placed pointer rest → j.opcode ≠ .add :=
        fun j hj => hraised j (List.mem_cons_of_mem _ hj)
      rw [lowering_of_cellStep pointer rest hi]
      rcases hi with hi | hi
      · -- an `add` stands beside the counter, since none stands on it
        have hbeside : pointer ≠ 0 := by
          rintro rfl
          exact hraised i (List.mem_cons_self ..) hi
        simp only [counterDrop?, hi, hbeside, if_false] at h
        simpa [hbeside] using ih hsteps hrest h
      · by_cases hown : pointer = 0
        · simp only [counterDrop?, hi, hown, if_true] at h
          obtain ⟨next, hnext, h⟩ := bind_eq_ok_iff.1 h
          obtain ⟨-, rfl⟩ := Operand.checked_eq_ok_iff.1 hnext
          rw [← hown] at h
          rw [ih hsteps hrest h, if_pos ⟨hown, hi⟩, Int.add_assoc]
        · simp only [counterDrop?, hi, hown, if_false] at h
          simpa [hown] using ih hsteps hrest h
    · rw [placed_of_move pointer rest hi] at hraised
      have hrest : ∀ j, (0, j) ∈ placed (pointer + i.amount) rest → j.opcode ≠ .add :=
        fun j hj => hraised j (List.mem_cons_of_mem _ hj)
      rw [lowering_of_move pointer rest hi]
      rcases hi with hop | hop
      · simp only [counterDrop?, hop] at h
        exact ih hsteps hrest (pointer_of_displacement (.inl hop) h).2.2
      · simp only [counterDrop?, hop] at h
        exact ih hsteps hrest (pointer_of_displacement (.inr hop) h).2.2

/-! ## 2. What the pass makes of them -/

end Stream

namespace Verdict.Multiplies

variable {body terms : List Instruction}

theorem share {drop : Nat} (h : Multiplies body drop terms) :
    ownShare (deposits 0 body) = -drop := by
  rw [ownShare_of_counterDrop h.drops, Int.zero_sub]

theorem inRange {drop : Int} (h : Multiplies body drop terms) :
    ∀ d ∈ deposits 0 body, Operand.InRange d.offset :=
  fun _ hd => inRange_of_mem_deposits h.final (by decide) hd

/-- The products, read off the body. -/
theorem terms_eq {drop : Int} (h : Multiplies body drop terms) :
    terms = ((deposits 0 body).filter (fun d => d.offset ≠ 0)).map Deposit.product := by
  simpa using products_eq h.terms

theorem opcode_of_mem_terms {drop : Int} (h : Multiplies body drop terms) {i : Instruction}
    (hi : i ∈ terms) : i.opcode = .mul := by
  rw [h.terms_eq] at hi
  obtain ⟨d, -, rfl⟩ := List.mem_map.1 hi
  rfl

end Verdict.Multiplies

namespace Stream

namespace CountsDown

variable {target : Target} {body : List Instruction} {drop : Int}

theorem patternOpcode_eq_none (h : CountsDown body drop) : patternOpcode? target body = none := by
  refine Option.eq_none_iff_forall_ne_some.2 fun opcode hpattern => ?_
  rcases patternOpcode_cases hpattern with ⟨i, rfl, hone, ⟨hop, -⟩ | ⟨hop, -⟩⟩ |
    ⟨out, next, rfl, hop, -⟩
  · have hreturns := h.returns
    simp [distance, Instruction.movesPointer, Instruction.amount, hop, hone] at hreturns
  · have hreturns := h.returns
    simp [distance, Instruction.movesPointer, Instruction.amount, hop, hone] at hreturns
  · have hout := h.steps out (List.mem_cons_self ..)
    simp [Instruction.IsCellStep, Instruction.IsMove, hop] at hout

/-- **The verdict on a body that counts down is to multiply.** -/
theorem verdict (h : CountsDown body drop) (hdrop : drop ≠ 0) {v : Verdict}
    (hv : Verdict.ofLoop target body = .ok v) :
    ∃ terms, v = .multiply drop terms ∧ Verdict.Multiplies body drop terms := by
  rcases Verdict.ofLoop_cases hv with ⟨opcode, -, hpattern⟩ | ⟨-, hbody⟩
  · rw [h.patternOpcode_eq_none] at hpattern
    cases hpattern
  obtain ⟨simple, hsimple, hbody⟩ := bind_eq_ok_iff.1 hbody
  rw [FlattenError.ofOverflow_eq_ok_iff] at hsimple
  obtain ⟨final, hfinal, hreturn⟩ := bind_eq_ok_iff.1 hsimple
  have hzero := final_of_finalPointer h.steps hfinal
  rw [h.returns, Int.add_zero] at hzero
  subst hzero
  obtain rfl : true = simple := by simpa [pure, Except.pure] using hreturn
  rcases Verdict.ofSimple_cases body with ⟨-, i, hsingle, hstep⟩ | ⟨hcounter, hother⟩
  · exact absurd hstep (h.several i hsingle)
  simp only [if_true, hcounter] at hbody
  obtain ⟨drop?, hdrop?, hbody⟩ := bind_eq_ok_iff.1 hbody
  rw [FlattenError.ofOverflow_eq_ok_iff] at hdrop?
  have hlowered := drop_of_counterDrop h.steps h.never_raised hdrop?
  rw [h.lowered, Int.zero_add] at hlowered
  subst hlowered
  simp only [hdrop, if_false] at hbody
  obtain ⟨terms, hterms, hbody⟩ := bind_eq_ok_iff.1 hbody
  cases hbody
  exact ⟨terms, rfl, hfinal, hdrop?, hdrop, hterms, hother⟩

theorem plain (h : CountsDown body drop) : ∀ i ∈ body, i.Plain :=
  fun i hi => (h.steps i hi).elim Instruction.IsCellStep.plain Instruction.IsMove.plain

end CountsDown

/-- The division that makes a counter the number of its rounds. -/
def division (drop : Int) (position : Option Position) : Instruction := ⟨.div, drop, 0, position⟩

/-- What the pass makes of a loop that counts down and stands alone. -/
theorem flatten_of_countsDown {target : Target} {start close : Instruction}
    {body code' : List Instruction} {drop : Int} (hkind : start.opcode = .loopStart)
    (hclose : close.opcode = .loopEnd) (hbody : CountsDown body drop) (hdrop : 2 ≤ drop)
    (h : flatten target (start :: (body ++ [close])) = .ok code') :
    ∃ terms, Verdict.Multiplies body drop terms ∧
      code' = ⟨.guard, start.value, 0, start.position⟩ ::
        ((division drop start.position :: terms) ++
          [⟨.label, close.value, 0, close.position⟩, .clearing start.position]) := by
  obtain ⟨⟨_, stats⟩, hstats, hcode⟩ := bind_eq_ok_iff.1 h
  cases hcode
  obtain ⟨final, hrun, hfinal⟩ := bind_eq_ok_iff.1 hstats
  cases hfinal
  obtain ⟨r, rest, hstep, hrun⟩ := Flattener.run_cons hrun
  have hparts := LoopParts.find?_block (.prepend body hbody.plain .done) hclose []
  rw [Tree.code_prepend, Tree.code_done, List.append_nil] at hparts
  rw [Flattener.step, if_pos hkind, hparts] at hstep
  simp only [Flattener.stepLoop_eq] at hstep
  obtain ⟨v, hverdict, hstep⟩ := bind_eq_ok_iff.1 hstep
  obtain ⟨terms, rfl, hmultiplies⟩ := hbody.verdict (by omega) hverdict
  cases hstep
  rw [Flattener.run] at hrun
  cases hrun
  have hdivides : drop ≠ 1 := by omega
  exact ⟨terms, hmultiplies, by
    simp [Flattener.putClear, Flattener.multiply, hdivides, division, Instruction.clearing]⟩

end Stream

/-! ## 3. Straight-line code in an evaluation -/

namespace Tree

variable {w : Width} {steps : List Instruction} {s s₁ : Store}

theorem eval_prepend_ok (hplain : ∀ i ∈ steps, i.Plain)
    (h : Instruction.effects w steps s = .ok s₁) (rounds : Nat) (t : Tree) :
    eval w rounds (prepend steps hplain t) s = delay steps.length (eval w rounds t s₁) := by
  induction steps generalizing s with
  | nil =>
    cases h
    simp [prepend]
  | cons i rest ih =>
    rw [Instruction.effects_cons] at h
    obtain ⟨s₂, hi, h⟩ := bind_eq_ok_iff.1 h
    rw [prepend, eval_step_ok hi, ih _ h, delay_delay, List.length_cons]

theorem eval_prepend_error {c : Crash} (hplain : ∀ i ∈ steps, i.Plain)
    (h : Instruction.effects w steps s = .error c) (rounds : Nat) (t : Tree) :
    ∃ n, eval w rounds (prepend steps hplain t) s = some (n, .error c) := by
  induction steps generalizing s with
  | nil => cases h
  | cons i rest ih =>
    rw [Instruction.effects_cons] at h
    cases hi : i.effect w s with
    | error c' =>
      rw [hi] at h
      cases h
      exact ⟨1, eval_step_error hi _ _ _⟩
    | ok s₂ =>
      rw [hi] at h
      obtain ⟨n, hn⟩ := ih (List.forall_mem_cons.1 hplain).2 h
      exact ⟨n + 1, by rw [prepend, eval_step_ok hi, hn, delay_some]⟩

/-! ## 4. The loop and its replacement -/

variable {start close : Instruction} {closes : close.Closes start} {body terms : List Instruction}
  {hplain : ∀ i ∈ body, i.Plain} {rounds drop : Nat}

/-- **A loop that counts down makes its rounds**, one by one, if its deposits
lie on the tape or there is no round. -/
theorem eval_countdown (hkind : start.opcode = .loopStart)
    (hmultiplies : Verdict.Multiplies body drop terms) (hdrop : 0 < drop)
    (hcells : ∀ value ∈ s.tape, value ≤ w.mask) (hpointer : Operand.InRange s.pointer)
    (hcell : s.cell 0 none = .ok (rounds * drop))
    (hhit : rounds ≠ 0 → ∀ d ∈ deposits 0 body, ¬ s.Misses d) :
    ∃ n, eval w rounds (block start (prepend body hplain done) close closes done) s =
      some (n, .ok (s.after w (deposits 0 body) rounds)) := by
  rcases Nat.eq_zero_or_pos rounds with rfl | hrounds
  · have hzero := cell_eq_ok_of_cell start.position hcell
    rw [Nat.zero_mul] at hzero
    rw [Store.after_zero hcells]
    exact ⟨2, by rw [eval]; simp only [hzero, eval, delay_some]⟩
  have hhit := hhit (Nat.ne_of_gt hrounds)
  have hguard : start.opcode ≠ .guard := by simp [hkind]
  -- the invariant: what is left of the counter pays for the rounds to come
  have htest (made left : Nat) (hsum : made + left = rounds) (position : Option Position) :
      (s.after w (deposits 0 body) made).cell 0 position = .ok (left * drop) := by
    have hleft : left * drop = rounds * drop - made * drop := by
      rw [← Nat.sub_mul]
      congr 1
      omega
    rw [hleft]
    exact cell_eq_ok_of_cell position (Store.cell_after hcells hmultiplies.inRange hhit
      hmultiplies.share hcell (Nat.mul_le_mul_right drop (by omega)))
  have hround (made : Nat) : Instruction.effects w body (s.after w (deposits 0 body) made) =
      .ok (s.after w (deposits 0 body) (made + 1)) := by
    rw [Instruction.effects_eq_depositAll (s := s.after w (deposits 0 body) made) hmultiplies.final
      (Width.le_mask_of_mem_raise _) hpointer, Store.depositAll_after,
      Store.find?_misses_eq_none_iff.2 hhit]
  have hloop (left made : Nat) (hsum : made + left = rounds) :
      ∃ n, eval w left (block start (prepend body hplain done) close closes done)
        (s.after w (deposits 0 body) made) =
          some (n, .ok (s.after w (deposits 0 body) rounds)) := by
    induction left generalizing made with
    | zero =>
      have hzero := htest made 0 hsum start.position
      rw [Nat.zero_mul] at hzero
      obtain rfl : made = rounds := by omega
      exact ⟨2, by rw [eval]; simp only [hzero, eval, delay_some]⟩
    | succ left ih =>
      obtain ⟨value, hvalue⟩ := Nat.exists_eq_add_one.2 (Nat.mul_pos (Nat.add_one_pos left) hdrop)
      have henter := htest made (left + 1) hsum start.position
      rw [hvalue] at henter
      have hbody := eval_prepend_ok hplain (hround made) (left + 1) done
      rw [eval, delay_some] at hbody
      have hagain := htest (made + 1) left (by omega) close.position
      obtain ⟨n, hn⟩ := ih (made + 1) (by omega)
      rw [eval]
      simp only [henter, hbody, hguard, if_false, hagain]
      cases hleft : left * drop with
      | zero =>
        obtain rfl : left = 0 := by
          rcases Nat.mul_eq_zero.1 hleft with hleft | hleft
          · exact hleft
          · omega
        obtain rfl : made + 1 = rounds := by omega
        exact ⟨body.length + 2, by simp only [eval, delay_some, Nat.zero_add]⟩
      | succ value => exact ⟨n + (0 + body.length + 2), by simp only [hn, delay_some]⟩
  have hstart := hloop rounds 0 (Nat.zero_add _)
  rwa [Store.after_zero hcells] at hstart

/-- A loop that counts down fails in its first round, if a deposit lies
beyond the tape. -/
theorem eval_countdown_misses {d : Deposit} {value : Nat}
    (hmultiplies : Verdict.Multiplies body drop terms)
    (hcells : ∀ value ∈ s.tape, value ≤ w.mask) (hpointer : Operand.InRange s.pointer)
    (hcell : s.cell 0 none = .ok (value + 1))
    (hmiss : (deposits 0 body).find? (fun d => s.Misses d) = some d) :
    ∃ n, eval w 0 (block start (prepend body hplain done) close closes done) s =
      some (n, .error ⟨.outOfBounds (s.address d.offset) d.position, s.sink⟩) := by
  have hbody : Instruction.effects w body s =
      .error ⟨.outOfBounds (s.address d.offset) d.position, s.sink⟩ := by
    rw [Instruction.effects_eq_depositAll hmultiplies.final hcells hpointer,
      Store.depositAll_eq hcells, hmiss]
  obtain ⟨n, hn⟩ := eval_prepend_error hplain hbody 0 done
  have henter := cell_eq_ok_of_cell start.position hcell
  exact ⟨n + 1, by rw [eval]; simp only [henter, hn]⟩

/-- Dividing a multiple leaves the number of rounds in the counter. -/
theorem effect_division (hdrop : 0 < drop) (hcell : s.cell 0 none = .ok (rounds * drop))
    (position : Option Position) :
    (Stream.division drop position).effect w s = s.setCell 0 rounds position := by
  obtain ⟨-, hvalue⟩ := Store.cell_eq_ok_iff.1 hcell
  have hpos : ¬ (drop : Int) ≤ 0 := by omega
  simp only [Instruction.effect, Stream.division, hpos, if_false, Store.update_eq_setCell, hvalue,
    Int.toNat_natCast, Nat.mul_div_cancel rounds hdrop]

/-- What the guarded code does to a counter that is a multiple of the drop. -/
theorem effects_quotient (hmultiplies : Verdict.Multiplies body drop terms) (hdrop : 0 < drop)
    (hcell : s.cell 0 none = .ok (rounds * drop)) (position : Option Position) :
    ∃ s₁, s.setCell 0 rounds position = .ok s₁ ∧
      Instruction.effects w (Stream.division drop position :: terms) s =
        s₁.depositAll w
          (((deposits 0 body).filter (fun d => d.offset ≠ 0)).map (Deposit.scale rounds)) := by
  have hset := Store.setCell_of_onTape rounds position (Store.cell_eq_ok_iff.1 hcell).1
  refine ⟨_, hset, ?_⟩
  rw [Instruction.effects_cons, effect_division hdrop hcell, hset, hmultiplies.terms_eq]
  exact Instruction.effects_products hmultiplies.inRange (Store.cell_of_setCell none hset)

variable {start' close' : Instruction} {closes' : close'.Closes start'}
  {position position' : Option Position} {plain : (Instruction.clearing position').Plain}
  {hplain' : ∀ i ∈ Stream.division drop position :: terms, i.Plain}

/-- **The replacement of a loop that counts down** leads to the store after
the loop's rounds, if the deposits lie on the tape or there is no round. -/
theorem eval_quotient (hkind : start'.opcode = .guard)
    (hmultiplies : Verdict.Multiplies body drop terms) (hdrop : 0 < drop) (hcells : ∀ value ∈ s.tape, value ≤ w.mask)
    (hcell : s.cell 0 none = .ok (rounds * drop))
    (hhit : rounds ≠ 0 → ∀ d ∈ deposits 0 body, ¬ s.Misses d) :
    ∃ n, eval w 0 (block start' (prepend (Stream.division drop position :: terms) hplain' done)
        close' closes' (step (.clearing position') plain done)) s =
      some (n, .ok (s.after w (deposits 0 body) rounds)) := by
  have henter := cell_eq_ok_of_cell start'.position hcell
  cases rounds with
  | zero =>
    rw [Nat.zero_mul] at henter hcell
    have hclear : (Instruction.clearing position').effect w s = .ok s := by
      rw [Instruction.effect_clearing, Store.setCell_of_cell position' hcell]
    rw [Store.after_zero hcells]
    exact ⟨3, by rw [eval]; simp only [henter, eval_step_ok hclear, eval, delay_some]⟩
  | succ more =>
    obtain ⟨value, hvalue⟩ := Nat.exists_eq_add_one.2 (Nat.mul_pos (Nat.add_one_pos more) hdrop)
    rw [hvalue] at henter
    obtain ⟨s₁, hset, heffects⟩ := effects_quotient hmultiplies hdrop hcell position
    obtain ⟨s₂, hdeposits, hclear⟩ := Store.products_then_clear hcells hmultiplies.inRange
      (hhit (Nat.succ_ne_zero more)) hmultiplies.share hdrop hcell hset position'
    rw [hdeposits] at heffects
    have hbody := eval_prepend_ok hplain' heffects 0 done
    rw [eval, delay_some] at hbody
    have hlast : (Instruction.clearing position').effect w s₂ =
        .ok (s.after w (deposits 0 body) (more + 1)) := by
      rw [Instruction.effect_clearing, hclear]
    refine ⟨0 + 1 + (0 + (terms.length + 1) + 2), ?_⟩
    rw [eval]
    simp only [henter, hbody, hkind, if_true, eval_step_ok hlast, eval, delay_some,
      List.length_cons]

/-- The replacement of a loop that counts down fails where the loop does. -/
theorem eval_quotient_misses {d : Deposit} (hmultiplies : Verdict.Multiplies body drop terms)
    (hdrop : 0 < drop) (hcells : ∀ value ∈ s.tape, value ≤ w.mask)
    (hcell : s.cell 0 none = .ok (rounds * drop)) (hrounds : 0 < rounds)
    (hmiss : (deposits 0 body).find? (fun d => s.Misses d) = some d) (rest : Tree) :
    ∃ n, eval w 0 (block start' (prepend (Stream.division drop position :: terms) hplain' done)
        close' closes' rest) s =
      some (n, .error ⟨.outOfBounds (s.address d.offset) d.position, s.sink⟩) := by
  obtain ⟨value, hvalue⟩ := Nat.exists_eq_add_one.2 (Nat.mul_pos hrounds hdrop)
  have henter := cell_eq_ok_of_cell start'.position hcell
  rw [hvalue] at henter
  obtain ⟨s₁, hset, heffects⟩ := effects_quotient hmultiplies hdrop hcell position
  have hbody : Instruction.effects w (Stream.division drop position :: terms) s =
      .error ⟨.outOfBounds (s.address d.offset) d.position, s.sink⟩ := by
    rw [heffects, Store.depositAll_eq (Store.le_mask_of_setRounds hcells hdrop hcell hset)]
    obtain ⟨hon, rfl⟩ := Store.setCell_eq_ok_iff.1 hset
    have hsize : (s.tape.setIfInBounds (s.address 0).toNat rounds).size = s.tape.size := by simp
    simp only [Store.misses_withTape hsize, Store.find?_products rounds _ hon, hmiss,
      Option.map_some]
    rfl
  obtain ⟨n, hn⟩ := eval_prepend_error hplain' hbody 0 done
  exact ⟨n + 1, by rw [eval]; simp only [henter, hn]⟩

/-- Two evaluations come to the same store, or leave the tape at the same
index through instructions of the same position. -/
inductive SameResult (w : Width) (t t' : Tree) (s : Store) : Prop where
  | done {rounds rounds' n n' : Nat} {s' : Store} (first : eval w rounds t s = some (n, .ok s'))
      (second : eval w rounds' t' s = some (n', .ok s')) : SameResult w t t' s
  | offTape {rounds rounds' n n' : Nat} {index : Int} {position : Option Position} {sink : Sink}
      (first : eval w rounds t s = some (n, .error ⟨.outOfBounds index position, sink⟩))
      (second : eval w rounds' t' s = some (n', .error ⟨.outOfBounds index position, sink⟩)) :
      SameResult w t t' s

/-- **A loop that counts down and its replacement come to the same result**,
from a counter that is a multiple of the drop. -/
theorem eval_countdown_quotient (hkind : start.opcode = .loopStart)
    (hkind' : start'.opcode = .guard) (hmultiplies : Verdict.Multiplies body drop terms)
    (hdrop : 0 < drop) (hcells : ∀ value ∈ s.tape, value ≤ w.mask)
    (hpointer : Operand.InRange s.pointer) (hcell : s.cell 0 none = .ok (rounds * drop)) :
    SameResult w (block start (prepend body hplain done) close closes done)
      (block start' (prepend (Stream.division drop position :: terms) hplain' done) close' closes'
        (step (.clearing position') plain done)) s := by
  have hdone (hhit : rounds ≠ 0 → ∀ d ∈ deposits 0 body, ¬ s.Misses d) :
      SameResult w (block start (prepend body hplain done) close closes done)
        (block start' (prepend (Stream.division drop position :: terms) hplain' done) close'
          closes' (step (.clearing position') plain done)) s := by
    obtain ⟨n, hn⟩ := eval_countdown hkind hmultiplies hdrop hcells hpointer hcell hhit
    obtain ⟨n', hn'⟩ := eval_quotient hkind' hmultiplies hdrop hcells hcell hhit
    exact .done hn hn'
  cases hmiss : (deposits 0 body).find? (fun d => s.Misses d) with
  | none => exact hdone fun _ => Store.find?_misses_eq_none_iff.1 hmiss
  | some d =>
    rcases Nat.eq_zero_or_pos rounds with rfl | hrounds
    · exact hdone fun hne => absurd rfl hne
    · obtain ⟨value, hvalue⟩ := Nat.exists_eq_add_one.2 (Nat.mul_pos hrounds hdrop)
      obtain ⟨n, hn⟩ :=
        eval_countdown_misses hmultiplies hcells hpointer (hvalue ▸ hcell) hmiss
      obtain ⟨n', hn'⟩ := eval_quotient_misses hmultiplies hdrop hcells hcell hrounds hmiss _
      exact .offTape hn hn'

end Tree

/-! ## 5. Division is exact -/

/-- A block of straight-line code before more of it has one label. -/
theorem Tree.nodup_labels_straight {start close : Instruction} {closes : close.Closes start}
    {steps : List Instruction} {hplain : ∀ i ∈ steps, i.Plain} {rest : Tree}
    (hrest : Stream.labels rest.code = []) :
    (Stream.labels (block start (prepend steps hplain done) close closes rest).code).Nodup := by
  rw [labels_block, code_prepend, code_done, List.append_nil, labels_plain hplain, hrest]
  exact List.nodup_singleton _

theorem Machine.same_result {w : Width} {m : Machine} {t t' : Tree}
    (hlabels : (Stream.labels t.code).Nodup) (hlabels' : (Stream.labels t'.code).Nodup)
    (h : Tree.SameResult w t t' m.toStore) :
    (∃ m₁ m₂, m.Completes t.code w m₁ ∧ m.Completes t'.code w m₂ ∧ m₁.toStore = m₂.toStore) ∨
      ∃ index position sink, m.Fails t.code w ⟨.outOfBounds index position, sink⟩ ∧
        m.Fails t'.code w ⟨.outOfBounds index position, sink⟩ := by
  cases h with
  | done first second =>
    exact .inl ⟨_, _, (completes_iff_eval hlabels).2 ⟨_, _, _, first, rfl⟩,
      (completes_iff_eval hlabels').2 ⟨_, _, _, second, rfl⟩, rfl⟩
  | offTape first second =>
    exact .inr ⟨_, _, _, (fails_iff_eval hlabels).2 ⟨_, _, first⟩,
      (fails_iff_eval hlabels').2 ⟨_, _, second⟩⟩

namespace Stream

/-- **Flattening with a division is exact where the counter divides.** A loop
whose body lowers its cell by `drop ≥ 2` becomes a guarded division with
products. From a cell that is a multiple of `drop`, the loop and its
replacement complete with the same store, or both leave the tape at the same
index, through instructions of the same position. -/
theorem division_exact {target : Target} {start close : Instruction}
    {body code' : List Instruction} {drop : Int} (hkind : start.opcode = .loopStart)
    (hcloses : close.Closes start) (hbody : CountsDown body drop) (hdrop : 2 ≤ drop)
    (h : flatten target (start :: (body ++ [close])) = .ok code') :
    (∃ terms : List Instruction, (∀ i ∈ terms, i.opcode = .mul) ∧
      code' = ⟨.guard, start.value, 0, start.position⟩ ::
        ((⟨.div, drop, 0, start.position⟩ :: terms) ++
          [⟨.label, close.value, 0, close.position⟩, ⟨.mul, -1, 0, start.position⟩])) ∧
    ∀ (w : Width) (m : Machine) (value : Nat), (∀ cell ∈ m.tape, cell ≤ w.mask) →
      Operand.InRange m.pointer → m.cell 0 none = .ok value → drop ∣ value →
      ((∃ m₁ m₂, m.Completes (start :: (body ++ [close])) w m₁ ∧ m.Completes code' w m₂ ∧
          m₁.toStore = m₂.toStore) ∨
        ∃ index position sink,
          m.Fails (start :: (body ++ [close])) w ⟨.outOfBounds index position, sink⟩ ∧
            m.Fails code' w ⟨.outOfBounds index position, sink⟩) ∧
      (¬ CounterOverflow (m.execute (start :: (body ++ [close])) w none) →
        ¬ CounterOverflow (m.execute code' w none) →
        (∃ m₁ m₂, m.execute (start :: (body ++ [close])) w none = .ok (.completed, m₁) ∧
            m.execute code' w none = .ok (.completed, m₂) ∧ m₁.toStore = m₂.toStore) ∨
          ∃ index position sink,
            m.execute (start :: (body ++ [close])) w none =
                .error ⟨.outOfBounds index position, sink⟩ ∧
              m.execute code' w none = .error ⟨.outOfBounds index position, sink⟩) := by
  have hclose : close.opcode = .loopEnd := by
    rcases hcloses.kinds with ⟨-, hc⟩ | ⟨hs, -⟩
    · exact hc
    · simp [hkind] at hs
  obtain ⟨drop, rfl⟩ := Int.eq_ofNat_of_zero_le (show 0 ≤ drop by omega)
  obtain ⟨terms, hmultiplies, rfl⟩ := flatten_of_countsDown hkind hclose hbody hdrop h
  refine ⟨⟨terms, fun i hi => hmultiplies.opcode_of_mem_terms hi, rfl⟩, ?_⟩
  intro w m value hcells hpointer hcell hdvd
  obtain ⟨rounds, rfl⟩ : ∃ rounds, value = rounds * drop := by
    obtain ⟨rounds, hrounds⟩ := Int.natCast_dvd_natCast.1 hdvd
    exact ⟨rounds, by rw [hrounds, Nat.mul_comm]⟩
  -- both streams as trees, with the one label they share
  have hplain : ∀ i ∈ division drop start.position :: terms, i.Plain :=
    List.forall_mem_cons.2 ⟨⟨rfl, rfl⟩, fun i hi => by
      simp [Instruction.Plain, hmultiplies.opcode_of_mem_terms hi, Opcode.opensBlock,
        Opcode.closesBlock]⟩
  have hguards : (⟨.label, close.value, 0, close.position⟩ : Instruction).Closes
      ⟨.guard, start.value, 0, start.position⟩ := ⟨rfl, hcloses.2⟩
  have hclears := Instruction.plain_clearing start.position
  have hsame : Tree.SameResult w
      (.block start (.prepend body hbody.plain .done) close hcloses .done)
      (.block _ (.prepend _ hplain .done) _ hguards (.step _ hclears .done)) m.toStore :=
    Tree.eval_countdown_quotient hkind rfl hmultiplies (by omega) hcells hpointer hcell
  have hresult :=
    Machine.same_result (Tree.nodup_labels_straight rfl) (Tree.nodup_labels_straight rfl) hsame
  simp only [Tree.code_block, Tree.code_prepend, Tree.code_step, Tree.code_done,
    List.append_nil] at hresult
  refine ⟨hresult, fun hroom hroom' => ?_⟩
  simpa only [Machine.completes_iff_execute hroom, Machine.completes_iff_execute hroom',
    Machine.fails_iff_execute hroom, Machine.fails_iff_execute hroom'] using hresult

/-- A counter that two steps lower, between deposits to its neighbours: six
comes down in three rounds. -/
theorem division_exact_interleaved :
    ∃ start close : Instruction, ∃ body code' : List Instruction,
      start = ⟨.loopStart, 0, 0, none⟩ ∧ close = ⟨.loopEnd, 0, 0, none⟩ ∧
      body = [⟨.sub, 1, 0, none⟩, ⟨.right, 1, 0, none⟩, ⟨.add, 3, 0, none⟩, ⟨.left, 1, 0, none⟩,
        ⟨.sub, 1, 0, none⟩, ⟨.left, 1, 0, none⟩, ⟨.sub, 5, 0, none⟩, ⟨.right, 1, 0, none⟩] ∧
      code' = [⟨.guard, 0, 0, none⟩, ⟨.div, 2, 0, none⟩, ⟨.mul, 3, 1, none⟩, ⟨.mul, -5, -1, none⟩,
        ⟨.label, 0, 0, none⟩, ⟨.mul, -1, 0, none⟩] ∧
      CountsDown body 2 ∧ flatten .qbe (start :: (body ++ [close])) = .ok code' ∧
      ∃ m : Machine, m = { tape := #[1, 6, 250], pointer := 1 } ∧ m.cell 0 none = .ok 6 ∧
        ((∃ m₁ m₂, m.Completes (start :: (body ++ [close])) .bits8 m₁ ∧
            m.Completes code' .bits8 m₂ ∧ m₁.toStore = m₂.toStore) ∨
          ∃ index position sink,
            m.Fails (start :: (body ++ [close])) .bits8 ⟨.outOfBounds index position, sink⟩ ∧
              m.Fails code' .bits8 ⟨.outOfBounds index position, sink⟩) := by
  have hbody : CountsDown [⟨.sub, 1, 0, none⟩, ⟨.right, 1, 0, none⟩, ⟨.add, 3, 0, none⟩,
      ⟨.left, 1, 0, none⟩, ⟨.sub, 1, 0, none⟩, ⟨.left, 1, 0, none⟩, ⟨.sub, 5, 0, none⟩,
      ⟨.right, 1, 0, none⟩] 2 :=
    ⟨by simp [Instruction.IsCellStep, Instruction.IsMove], by decide, by simp,
      by simp [placed, Instruction.movesPointer, Instruction.amount], by decide⟩
  have hflat : flatten .qbe (⟨.loopStart, 0, 0, none⟩ :: ([⟨.sub, 1, 0, none⟩,
      ⟨.right, 1, 0, none⟩, ⟨.add, 3, 0, none⟩, ⟨.left, 1, 0, none⟩, ⟨.sub, 1, 0, none⟩,
      ⟨.left, 1, 0, none⟩, ⟨.sub, 5, 0, none⟩, ⟨.right, 1, 0, none⟩] ++
        [⟨.loopEnd, 0, 0, none⟩])) =
      .ok [⟨.guard, 0, 0, none⟩, ⟨.div, 2, 0, none⟩, ⟨.mul, 3, 1, none⟩, ⟨.mul, -5, -1, none⟩,
        ⟨.label, 0, 0, none⟩, ⟨.mul, -1, 0, none⟩] := by
    cbv
  have hcell : ({ tape := #[1, 6, 250], pointer := 1 } : Machine).cell 0 none = .ok 6 := by cbv
  exact ⟨_, _, _, _, rfl, rfl, rfl, rfl, hbody, hflat, _, rfl, hcell,
    ((division_exact rfl (by decide) hbody (by decide) hflat).2 .bits8 _ 6
      (by simp [Width.mask, Width.modulus]) (by decide) hcell (by decide)).1⟩

end Stream

end TapeCompiler
