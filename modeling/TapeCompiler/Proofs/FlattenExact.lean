/-
TapeCompiler.Proofs.FlattenExact — exactly what flattening makes of a stream.

The rules of `Tree.Flattens` say what the flattener may do. Here is what it
does: `LoopTree.Becomes` relates a tree to the one that is written for it
and to the rules that were counted. It is about any stream, with brackets
that carry any labels, and with closing brackets that close nothing.

Between two nodes of a tree the flattener knows one of four things
(`Mode`): nothing; that the cell is zero; an instruction that a clear would
still undo; or that a flattened loop still has to clear its counter, unless
the next step can be folded with the clear. The last two say what is still
to be written, `Mode.settle`.

`Stream.flattenWithStats_eq_ok_iff` says that the pass succeeds with a
stream and its counters exactly if the relation holds of them. The relation
follows the tree, so what the pass guarantees can be shown by induction on
it, without a look at the flattener's own state.
-/
import TapeCompiler.Proofs.FlattenStep
import TapeCompiler.Proofs.LoopNesting
import TapeCompiler.Proofs.LoopRules

namespace TapeCompiler

/-! ## 1. Modes -/

/-- What a clear undoes is no bracket, so it can be held before a tree. -/
theorem Flattener.overwritten_outside {i : Instruction} (h : overwritten i = true) :
    i.OutsideLoops := by
  unfold overwritten at h
  unfold Instruction.OutsideLoops
  cases hop : i.opcode <;> simp_all

/-- What the flattener knows between two nodes of a tree. -/
inductive Mode where
  /-- Nothing. -/
  | plain
  /-- The cell is zero, and all is written. -/
  | zero
  /-- The instruction is to be written, unless a clear undoes it. -/
  | held (i : Instruction) (undone : Flattener.overwritten i = true)
  /-- The loop opened by `start` is flattened, but for the clear of its
  counter. -/
  | owing (start : Instruction)

namespace Mode

/-- What is still to be written, if nothing changes that. -/
def pending : Mode → List Instruction
  | plain | zero => []
  | held i _ => [i]
  | owing start => [.clearing start.position]

/-- What is still to be written, before a tree. -/
def settle : Mode → LoopTree → LoopTree
  | plain, t | zero, t => t
  | held i undone, t => .step i (Flattener.overwritten_outside undone) t
  | owing start, t => .step (.clearing start.position) ⟨nofun, nofun⟩ t

/-- The cell is zero once all is written. -/
def isZero : Mode → Bool
  | plain | held _ _ => false
  | zero | owing _ => true

/-- The instruction is folded with the clear that is owed. -/
def Takes (m : Mode) (i : Instruction) : Prop :=
  match m with
  | owing _ => i.IsCellStep
  | _ => False

theorem Takes.isCellStep {m : Mode} {i : Instruction} (h : m.Takes i) : i.IsCellStep := by
  cases m with
  | owing start => exact h
  | _ => exact False.elim h

/-- Where nothing is held, the output ends with nothing that a clear would
undo. -/
def Fits (m : Mode) (output : List Instruction) : Prop :=
  m = plain → ∀ i ∈ output.head?, Flattener.overwritten i = false

theorem fits_zero (output : List Instruction) : zero.Fits output := by
  simp [Fits]

theorem fits_held (i : Instruction) (undone : Flattener.overwritten i = true)
    (output : List Instruction) : (held i undone).Fits output := by
  simp [Fits]

theorem fits_owing (start : Instruction) (output : List Instruction) :
    (owing start).Fits output := by
  simp [Fits]

/-- What is pending comes first. -/
@[simp] theorem code_settle (m : Mode) (t : LoopTree) :
    (m.settle t).code = m.pending ++ t.code := by
  cases m <;> rfl

theorem reverse_pending (m : Mode) : m.pending.reverse = m.pending := by
  cases m <;> rfl

/-- The flattener at work, in a mode and with the output so far. -/
def resume (target : Target) (m : Mode) (output : List Instruction) (stats : LoopStats)
    (code : List Instruction) : Except FlattenError Flattener :=
  match m with
  | plain => Flattener.run target ⟨output, false, stats⟩ code
  | zero => Flattener.run target ⟨output, true, stats⟩ code
  | held i _ => Flattener.run target ⟨i :: output, false, stats⟩ code
  | owing start => do
    let (r, rest) ← FlattenError.ofOverflow
      (Flattener.finishCell ⟨output, false, stats⟩ start code)
    Flattener.run target r rest

variable {target : Target} {m : Mode} {output : List Instruction} {stats : LoopStats}

/-- Only a step of the cell is folded. -/
theorem storedValue_of_not_cellStep {i : Instruction} (h : ¬ i.IsCellStep) :
    Flattener.storedValue? i = .ok none := by
  unfold Instruction.IsCellStep at h
  unfold Flattener.storedValue?
  split <;> simp_all

/-- What comes next is handled with all written that was still to be. -/
theorem resume_eq {code : List Instruction} (h : ∀ i ∈ code.head?, ¬ m.Takes i) :
    m.resume target output stats code =
      Flattener.run target ⟨m.pending ++ output, m.isZero, stats⟩ code := by
  cases m with
  | plain => rfl
  | zero => rfl
  | held i undone => rfl
  | owing start =>
    cases code with
    | nil => rfl
    | cons i rest =>
      have hnone := storedValue_of_not_cellStep (h i (by simp))
      simp [resume, Flattener.finishCell, hnone, bind, Except.bind, pure, Except.pure,
        FlattenError.ofOverflow, Flattener.putClear, pending, isZero, Instruction.clearing]

end Mode

/-! ## 2. What becomes of a tree -/

namespace LoopTree

open Flattener

/-- `t.Becomes target m u stats`: the flattener, in mode `m`, writes `u` for
the tree, and counts `stats`. -/
inductive Becomes (target : Target) : Mode → LoopTree → LoopTree → LoopStats → Prop where
  /-- At the end, what is pending is written. -/
  | done (m : Mode) : Becomes target m done (m.settle done) {}
  /-- A step behind a flattened loop becomes a store. -/
  | fold {start i : Instruction} {value : Int} {outside : i.OutsideLoops} {rest u : LoopTree}
      {n : LoopStats} (stored : storedValue? i = .ok (some value))
      (hrest : Becomes target (.held ⟨.store, value, 0, i.position⟩ rfl) rest u n) :
      Becomes target (.owing start) (step i outside rest) u ({ foldedStores := 1 } + n)
  /-- An instruction that a clear would undo is held. -/
  | hold {m : Mode} {i : Instruction} {outside : i.OutsideLoops} {rest u : LoopTree}
      {n : LoopStats} (undone : overwritten i = true) (alone : ¬ m.Takes i)
      (hrest : Becomes target (.held i undone) rest u n) :
      Becomes target m (step i outside rest) (m.settle u) n
  /-- Every other instruction is written. -/
  | pass {m : Mode} {i : Instruction} {outside : i.OutsideLoops} {rest u : LoopTree}
      {n : LoopStats} (stays : overwritten i = false) (hrest : Becomes target .plain rest u n) :
      Becomes target m (step i outside rest) (m.settle (step i outside u)) n
  /-- A loop on a zero cell is dropped. -/
  | dead {m : Mode} {start close : Instruction} {body rest u : LoopTree} {n : LoopStats}
      {opens : start.opcode = .loopStart} {closes : close.opcode = .loopEnd}
      (hm : m.isZero = true) (hrest : Becomes target .zero rest u n) :
      Becomes target m (loop start body close opens closes rest) (m.settle u)
        ({ deadLoops := 1 } + n)
  /-- A loop is kept, and so the cell is zero behind it. -/
  | keep {m : Mode} {start close : Instruction} {body body' rest u : LoopTree} {n n' : LoopStats}
      {opens : start.opcode = .loopStart} {closes : close.opcode = .loopEnd}
      (hm : m.isZero = false) (verdict : Verdict.ofLoop target body.code = .ok .keep)
      (hbody : Becomes target .plain body body' n) (hrest : Becomes target .zero rest u n') :
      Becomes target m (loop start body close opens closes rest)
        (m.settle (loop start body' close opens closes u)) (n + n')
  /-- One instruction stands for a scan or print loop. -/
  | pattern {m : Mode} {start close : Instruction} {body rest u : LoopTree} {n : LoopStats}
      {opens : start.opcode = .loopStart} {closes : close.opcode = .loopEnd} {opcode : Opcode}
      (hm : m.isZero = false) (verdict : Verdict.ofLoop target body.code = .ok (.pattern opcode))
      (outside : (⟨opcode, 0, 0, start.position⟩ : Instruction).OutsideLoops)
      (hrest : Becomes target .zero rest u n) :
      Becomes target m (loop start body close opens closes rest)
        (m.settle (step ⟨opcode, 0, 0, start.position⟩ outside u)) (.ofPattern opcode + n)
  /-- A loop over one step clears the cell, and undoes what is held. -/
  | clear {m : Mode} {start close : Instruction} {body rest u : LoopTree} {n : LoopStats}
      {opens : start.opcode = .loopStart} {closes : close.opcode = .loopEnd}
      (hm : m.isZero = false) (verdict : Verdict.ofLoop target body.code = .ok .clear)
      (hrest : Becomes target (.owing start) rest u n) :
      Becomes target m (loop start body close opens closes rest) u
        ({ clearLoops := 1, removedStores := m.pending.length } + n)
  /-- A loop with a counter becomes products. -/
  | multiply {m : Mode} {start close : Instruction} {body rest u : LoopTree} {n : LoopStats}
      {opens : start.opcode = .loopStart} {closes : close.opcode = .loopEnd} {drop : Int}
      {terms : List Instruction} (hm : m.isZero = false)
      (verdict : Verdict.ofLoop target body.code = .ok (.multiply drop terms))
      (outside : ∀ i ∈ guarded start drop terms close, i.OutsideLoops)
      (hrest : Becomes target (.owing start) rest u n) :
      Becomes target m (loop start body close opens closes rest)
        (m.settle (prepend (guarded start drop terms close) outside u))
        ({ multiplyLoops := 1, divisions := if drop = 1 then 0 else 1 } + n)

end LoopTree

/-! ## 3. The flattener on a tree -/

namespace Flattener

variable {target : Target} {m : Mode} {output tail : List Instruction} {stats : LoopStats}

/-- The stream ends here, or a loop does. -/
def LoopEnded (tail : List Instruction) : Prop := ∀ i ∈ tail.head?, i.opcode = .loopEnd

/-- At the end of a loop nothing is folded, whatever is owed. -/
theorem LoopEnded.not_takes (h : LoopEnded tail) (m : Mode) : ∀ i ∈ tail.head?, ¬ m.Takes i := by
  intro i hi htakes
  rcases htakes.isCellStep with hop | hop <;> simp [h i hi] at hop

theorem run_cons_eq (target : Target) (r : Flattener) (i : Instruction) (rest : List Instruction) :
    run target r (i :: rest) =
      (r.step target i rest >>= fun (r', rest') => run target r' rest') := by
  rw [run]
  split <;> simp_all [bind, Except.bind]

/-- A step is written, and what the cell holds is no longer known. -/
theorem run_step {i : Instruction} (outside : i.OutsideLoops) (r : Flattener)
    (rest : List Instruction) :
    run target r (i :: rest) = run target ⟨i :: r.output, false, r.stats⟩ rest := by
  have hend : (i.opcode == .loopEnd) = false := by simpa using outside.2
  rw [run_cons_eq, step_of_not_loop outside.1]
  simp [bind, Except.bind, keep, hend]

/-- Behind a closing bracket the cell is zero. -/
theorem run_close {close : Instruction} (closes : close.opcode = .loopEnd) (r : Flattener)
    (rest : List Instruction) :
    run target r (close :: rest) = run target ⟨close :: r.output, true, r.stats⟩ rest := by
  rw [run_cons_eq, step_of_not_loop (by simp [closes])]
  simp [bind, Except.bind, keep, closes]

/-- The parts of a loop are the parts that the tree says. -/
theorem run_loop {start close : Instruction} (opens : start.opcode = .loopStart)
    (closes : close.opcode = .loopEnd) (body : LoopTree) (r : Flattener)
    (more : List Instruction) :
    run target r (start :: (body.code ++ close :: more)) =
      (r.stepLoop target start (body.code ++ close :: more) ⟨body.code, close, more⟩ >>=
        fun (r', rest') => run target r' rest') := by
  rw [run_cons_eq]
  simp [step, opens, LoopParts.find?_loop body closes]

/-- What is pending is what the flattener would take back. -/
theorem held_pending (hm : m.isZero = false) (hfits : m.Fits output) (zero : Bool) :
    held ⟨m.pending ++ output, zero, stats⟩ = m.pending := by
  cases m with
  | zero => cases hm
  | owing start => cases hm
  | held i undone => simp [Mode.pending, held, undone]
  | plain =>
    cases output with
    | nil => rfl
    | cons i older => simp [Mode.pending, held, hfits rfl i (by simp)]

/-- What is pending in a mode is held, and the output is settled. -/
theorem settled_pending (hm : m.isZero = false) (hfits : m.Fits output) (zero : Bool) :
    settled ⟨m.pending ++ output, zero, stats⟩ = output := by
  have hsplit := settled_append_held ⟨m.pending ++ output, zero, stats⟩
  rw [held_pending hm hfits, List.reverse_append, Mode.reverse_pending] at hsplit
  exact List.reverse_inj.1 (List.append_cancel_right hsplit)

section Loop

variable {start close : Instruction} (opens : start.opcode = .loopStart)
  (closes : close.opcode = .loopEnd) (body : LoopTree) (more : List Instruction)

include opens closes

/-- Before a bracket nothing is folded, so what is pending stands in the
output. -/
theorem resume_loop (target : Target) (m : Mode) (output : List Instruction) (stats : LoopStats) :
    m.resume target output stats (start :: (body.code ++ close :: more)) =
      (stepLoop target ⟨m.pending ++ output, m.isZero, stats⟩ start
        (body.code ++ close :: more) ⟨body.code, close, more⟩ >>=
          fun (r', rest') => run target r' rest') := by
  have hstart : ∀ i ∈ (start :: (body.code ++ close :: more)).head?, ¬ m.Takes i := by
    intro i hi htakes
    obtain rfl : start = i := by simpa using hi
    rcases htakes.isCellStep with hop | hop <;> simp [opens] at hop
  rw [Mode.resume_eq hstart, run_loop opens closes]

/-- A loop on a zero cell is passed over. -/
theorem resume_dead (hm : m.isZero = true) :
    m.resume target output stats (start :: (body.code ++ close :: more)) =
      Mode.zero.resume target (m.pending ++ output) (stats + { deadLoops := 1 }) more := by
  rw [resume_loop opens closes, stepLoop_eq, hm]
  rfl

/-- On any other cell the verdict on the body is carried out. -/
theorem resume_verdict (hm : m.isZero = false) {v : Verdict}
    (verdict : Verdict.ofLoop target body.code = .ok v) :
    m.resume target output stats (start :: (body.code ++ close :: more)) =
      (carryOut ⟨m.pending ++ output, false, stats⟩ start (body.code ++ close :: more)
        ⟨body.code, close, more⟩ v >>= fun (r', rest') => run target r' rest') := by
  rw [resume_loop opens closes, stepLoop_eq, hm, verdict]
  rfl

/-- A loop that is kept is opened, and its body comes next. -/
theorem resume_keep (hm : m.isZero = false)
    (verdict : Verdict.ofLoop target body.code = .ok .keep) :
    m.resume target output stats (start :: (body.code ++ close :: more)) =
      Mode.plain.resume target (start :: (m.pending ++ output)) stats
        (body.code ++ close :: more) := by
  have hend : (start.opcode == .loopEnd) = false := by
    rw [opens]
    rfl
  rw [resume_verdict opens closes body more hm verdict]
  simp [carryOut, bind, Except.bind, keep, hend, Mode.resume]

/-- The instruction for a scan or print loop leaves nothing owed. -/
theorem resume_pattern (hm : m.isZero = false) {opcode : Opcode}
    (verdict : Verdict.ofLoop target body.code = .ok (.pattern opcode)) :
    m.resume target output stats (start :: (body.code ++ close :: more)) =
      Mode.zero.resume target (⟨opcode, 0, 0, start.position⟩ :: (m.pending ++ output))
        (stats + .ofPattern opcode) more := by
  rw [resume_verdict opens closes body more hm verdict, carryOut, putPattern_eq]
  rfl

/-- A clear undoes what is held, and is itself still owed. -/
theorem resume_clear (hm : m.isZero = false) (hfits : m.Fits output)
    (verdict : Verdict.ofLoop target body.code = .ok .clear) :
    m.resume target output stats (start :: (body.code ++ close :: more)) =
      (Mode.owing start).resume target output
        (stats + { clearLoops := 1, removedStores := m.pending.length }) more := by
  rw [resume_verdict opens closes body more hm verdict, carryOut, clear_eq,
    held_pending hm hfits, settled_pending hm hfits]
  rfl

/-- Products undo nothing. The clear of their counter is owed. -/
theorem resume_multiply (hm : m.isZero = false) {drop : Int} {terms : List Instruction}
    (verdict : Verdict.ofLoop target body.code = .ok (.multiply drop terms)) :
    m.resume target output stats (start :: (body.code ++ close :: more)) =
      (Mode.owing start).resume target
        ((guarded start drop terms close).reverse ++ (m.pending ++ output))
        (stats + { multiplyLoops := 1, divisions := if drop = 1 then 0 else 1 }) more := by
  rw [resume_verdict opens closes body more hm verdict, carryOut, multiply_eq]
  rfl

end Loop

/-- A step that is not folded is written behind what was pending. -/
theorem resume_step {i : Instruction} (outside : i.OutsideLoops) (rest : List Instruction)
    (alone : ¬ m.Takes i) :
    m.resume target output stats (i :: rest) =
      run target ⟨i :: (m.pending ++ output), false, stats⟩ rest := by
  have hhead : ∀ j ∈ (i :: rest).head?, ¬ m.Takes j := by
    intro j hj
    obtain rfl : i = j := by simpa using hj
    exact alone
  rw [Mode.resume_eq hhead, run_step outside]

/-- A step that is folded becomes a store, which a later clear may still undo. -/
theorem resume_fold {start i : Instruction} {value : Int}
    (stored : storedValue? i = .ok (some value)) (rest : List Instruction) :
    (Mode.owing start).resume target output stats (i :: rest) =
      (Mode.held ⟨.store, value, 0, i.position⟩ rfl).resume target output
        (stats + { foldedStores := 1 }) rest := by
  simp only [Mode.resume, finishCell, stored]
  rfl

theorem not_takes_of_stays {i : Instruction} (h : overwritten i = false) (m : Mode) :
    ¬ m.Takes i := by
  intro htakes
  rcases htakes.isCellStep with hop | hop <;> simp [overwritten, hop] at h

end Flattener

namespace LoopTree

open Flattener

variable {target : Target} {m : Mode} {t u : LoopTree} {n : LoopStats}

/-- What becomes of a tree is written when the flattener comes to its
stream, and then it comes to what follows. -/
theorem Becomes.resume_eq (h : Becomes target m t u n) (output tail : List Instruction)
    (stats : LoopStats) (hfits : m.Fits output) (htail : LoopEnded tail) :
    ∃ zero, m.resume target output stats (t.code ++ tail) =
      run target ⟨u.code.reverse ++ output, zero, stats + n⟩ tail := by
  induction h generalizing output tail stats with
  | done m =>
    refine ⟨m.isZero, ?_⟩
    rw [code_done, List.nil_append, Mode.resume_eq (htail.not_takes m)]
    simp [Mode.reverse_pending]
  | fold stored _ ih =>
    obtain ⟨zero, hrun⟩ := ih output tail (stats + { foldedStores := 1 })
      (Mode.fits_held _ _ _) htail
    refine ⟨zero, ?_⟩
    rw [code_step, List.cons_append, resume_fold stored, hrun, LoopStats.add_assoc]
  | @hold m i outside rest u n undone alone _ ih =>
    obtain ⟨zero, hrun⟩ := ih (m.pending ++ output) tail stats (Mode.fits_held _ _ _) htail
    refine ⟨zero, ?_⟩
    rw [code_step, List.cons_append, resume_step outside _ alone]
    exact hrun.trans (by simp [Mode.reverse_pending])
  | @pass m i outside rest u n stays _ ih =>
    have hfits' : Mode.plain.Fits (i :: (m.pending ++ output)) := by simp [Mode.Fits, stays]
    obtain ⟨zero, hrun⟩ := ih _ tail stats hfits' htail
    refine ⟨zero, ?_⟩
    rw [code_step, List.cons_append, resume_step outside _ (not_takes_of_stays stays m)]
    exact hrun.trans (by simp [Mode.reverse_pending])
  | @dead m start close body rest u n opens closes hm _ ih =>
    obtain ⟨zero, hrun⟩ := ih (m.pending ++ output) tail (stats + { deadLoops := 1 })
      (Mode.fits_zero _) htail
    refine ⟨zero, ?_⟩
    simp only [code_loop, List.cons_append, List.append_assoc]
    rw [resume_dead opens closes body _ hm, hrun]
    simp [Mode.reverse_pending, LoopStats.add_assoc]
  | @keep m start close body body' rest u n n' opens closes hm verdict _ _ ihb ihr =>
    -- the body ends at its closing bracket, behind which the cell is zero
    have hfits' : Mode.plain.Fits (start :: (m.pending ++ output)) := by
      simp [Mode.Fits, overwritten, opens]
    have hclose : LoopEnded (close :: (rest.code ++ tail)) := by simp [LoopEnded, closes]
    obtain ⟨zero, hbody⟩ := ihb _ _ stats hfits' hclose
    obtain ⟨zero', hrest⟩ := ihr
      (close :: (body'.code.reverse ++ start :: (m.pending ++ output))) tail (stats + n)
      (Mode.fits_zero _) htail
    refine ⟨zero', ?_⟩
    simp only [code_loop, List.cons_append, List.append_assoc]
    rw [resume_keep opens closes body _ hm verdict, hbody, run_close closes]
    exact hrest.trans (by simp [Mode.reverse_pending, LoopStats.add_assoc])
  | @pattern m start close body rest u n opens closes opcode hm verdict outside _ ih =>
    obtain ⟨zero, hrun⟩ := ih (⟨opcode, 0, 0, start.position⟩ :: (m.pending ++ output)) tail
      (stats + .ofPattern opcode) (Mode.fits_zero _) htail
    refine ⟨zero, ?_⟩
    simp only [code_loop, List.cons_append, List.append_assoc]
    rw [resume_pattern opens closes body _ hm verdict, hrun]
    simp [Mode.reverse_pending, LoopStats.add_assoc]
  | @clear m start close body rest u n opens closes hm verdict _ ih =>
    obtain ⟨zero, hrun⟩ := ih output tail
      (stats + { clearLoops := 1, removedStores := m.pending.length }) (Mode.fits_owing _ _) htail
    refine ⟨zero, ?_⟩
    simp only [code_loop, List.cons_append, List.append_assoc]
    rw [resume_clear opens closes body _ hm hfits verdict, hrun, LoopStats.add_assoc]
  | @multiply m start close body rest u n opens closes drop terms hm verdict outside _ ih =>
    obtain ⟨zero, hrun⟩ := ih ((guarded start drop terms close).reverse ++ (m.pending ++ output))
      tail (stats + { multiplyLoops := 1, divisions := if drop = 1 then 0 else 1 })
      (Mode.fits_owing _ _) htail
    refine ⟨zero, ?_⟩
    simp only [code_loop, List.cons_append, List.append_assoc]
    rw [resume_multiply opens closes body _ hm verdict, hrun]
    simp [Mode.reverse_pending, LoopStats.add_assoc]

/-- The instruction for a scan or print loop is no bracket. -/
theorem outside_pattern {body : List Instruction} {opcode : Opcode}
    (h : patternOpcode? target body = some opcode) (position : Option Position) :
    (⟨opcode, 0, 0, position⟩ : Instruction).OutsideLoops := by
  rcases opcode_of_pattern h with rfl | rfl | rfl <;> exact ⟨nofun, nofun⟩

/-- Neither are the products, nor the test around them. -/
theorem outside_guarded {body terms : List Instruction} (h : products 0 [] body = .ok terms)
    (start : Instruction) (drop : Int) (close : Instruction) :
    ∀ i ∈ guarded start drop terms close, i.OutsideLoops := by
  intro i hi
  simp only [guarded, List.cons_append, List.mem_cons, List.mem_append, List.not_mem_nil,
    or_false] at hi
  rcases hi with rfl | (hi | hi) | rfl
  · exact ⟨nofun, nofun⟩
  · split at hi
    · cases hi
    · rw [List.mem_singleton.1 hi]
      exact ⟨nofun, nofun⟩
  · obtain ⟨_, -, -, rfl⟩ := mem_products h hi
    exact ⟨nofun, nofun⟩
  · exact ⟨nofun, nofun⟩

/-- Where the pass succeeds, a step behind a flattened loop has been folded.
Only a value without an opposite could not be. -/
theorem exists_storedValue {start i : Instruction} {output rest : List Instruction}
    {stats : LoopStats} {final : Flattener} (hstep : i.IsCellStep)
    (h : (Mode.owing start).resume target output stats (i :: rest) = .ok final) :
    ∃ value, storedValue? i = .ok (some value) := by
  rcases hstep with hop | hop
  · exact ⟨i.value, by simp [storedValue?, hop]⟩
  · cases hneg : Operand.neg i.value with
    | ok value =>
      exact ⟨value, by simp [storedValue?, hop, hneg, bind, Except.bind, pure, Except.pure]⟩
    | error cause =>
      simp [Mode.resume, finishCell, storedValue?, hop, hneg, bind, Except.bind,
        FlattenError.ofOverflow] at h

/-- Something becomes of each tree that the flattener passes. -/
theorem exists_becomes (t : LoopTree) (m : Mode) (output tail : List Instruction)
    (stats : LoopStats) {final : Flattener} (hfits : m.Fits output) (htail : LoopEnded tail)
    (hrun : m.resume target output stats (t.code ++ tail) = .ok final) :
    ∃ u n, Becomes target m t u n := by
  induction t generalizing m output tail stats with
  | done => exact ⟨_, _, .done m⟩
  | step i outside rest ih =>
    rw [code_step, List.cons_append] at hrun
    by_cases htakes : m.Takes i
    · cases m with
      | owing start =>
        obtain ⟨value, hstored⟩ := exists_storedValue htakes hrun
        rw [resume_fold hstored] at hrun
        obtain ⟨u, n, hrest⟩ :=
          ih (.held ⟨.store, value, 0, i.position⟩ rfl) _ _ _ (Mode.fits_held _ _ _) htail hrun
        exact ⟨u, _, .fold hstored hrest⟩
      | _ => exact htakes.elim
    · rw [resume_step outside _ htakes] at hrun
      cases hundone : overwritten i with
      | true =>
        obtain ⟨u, n, hrest⟩ := ih (.held i hundone) _ _ _ (Mode.fits_held _ _ _) htail hrun
        exact ⟨_, _, .hold hundone htakes hrest⟩
      | false =>
        have hfits' : Mode.plain.Fits (i :: (m.pending ++ output)) := by
          simp [Mode.Fits, hundone]
        obtain ⟨u, n, hrest⟩ := ih .plain _ _ _ hfits' htail hrun
        exact ⟨_, _, .pass hundone hrest⟩
  | loop start body close opens closes rest ihb ihr =>
    simp only [code_loop, List.cons_append, List.append_assoc] at hrun
    -- the step at the bracket says which rule applies
    have hstep : ∃ r' rest', LoopStep target ⟨m.pending ++ output, m.isZero, stats⟩ start
        (body.code ++ close :: (rest.code ++ tail)) ⟨body.code, close, rest.code ++ tail⟩
        r' rest' := by
      rw [resume_loop opens closes] at hrun
      obtain ⟨⟨r', rest'⟩, hstep, -⟩ := bind_eq_ok_iff.1 hrun
      exact ⟨r', rest', loopStep_iff.2 hstep⟩
    obtain ⟨r', rest', hstep⟩ := hstep
    cases hstep with
    | dead hm =>
      rw [resume_dead opens closes body _ hm] at hrun
      obtain ⟨u, n, hrest⟩ := ihr .zero _ _ _ (Mode.fits_zero _) htail hrun
      exact ⟨_, _, .dead hm hrest⟩
    | kept hm hverdict =>
      have hfits' : Mode.plain.Fits (start :: (m.pending ++ output)) := by
        simp [Mode.Fits, overwritten, opens]
      have hclose : LoopEnded (close :: (rest.code ++ tail)) := by simp [LoopEnded, closes]
      rw [resume_keep opens closes body _ hm hverdict] at hrun
      obtain ⟨body', n, hbody⟩ := ihb .plain _ _ _ hfits' hclose hrun
      obtain ⟨zero, hpassed⟩ := hbody.resume_eq _ _ stats hfits' hclose
      rw [hpassed, run_close closes] at hrun
      obtain ⟨u, n', hrest⟩ := ihr .zero _ _ _ (Mode.fits_zero _) htail hrun
      exact ⟨_, _, .keep hm hverdict hbody hrest⟩
    | pattern hm hverdict =>
      have hpattern := Verdict.patternOpcode_of_ofLoop hverdict
      rw [resume_pattern opens closes body _ hm hverdict] at hrun
      obtain ⟨u, n, hrest⟩ := ihr .zero _ _ _ (Mode.fits_zero _) htail hrun
      exact ⟨_, _, .pattern hm hverdict (outside_pattern hpattern _) hrest⟩
    | clear hm hverdict =>
      rw [resume_clear opens closes body _ hm hfits hverdict] at hrun
      obtain ⟨u, n, hrest⟩ := ihr (.owing start) _ _ _ (Mode.fits_owing _ _) htail hrun
      exact ⟨_, _, .clear hm hverdict hrest⟩
    | multiply hm hverdict =>
      have hterms := (Verdict.multiplies_of_ofLoop hverdict).terms
      rw [resume_multiply opens closes body _ hm hverdict] at hrun
      obtain ⟨u, n, hrest⟩ := ihr (.owing start) _ _ _ (Mode.fits_owing _ _) htail hrun
      exact ⟨_, _, .multiply hm hverdict (outside_guarded hterms _ _ _) hrest⟩

end LoopTree

/-! ## 4. Whole streams -/

namespace Stream

open Flattener

/-- What becomes of a stream whose closing brackets need not all have a
partner: behind one that has none the cell is zero as well. -/
inductive Becomes (target : Target) :
    Mode → List Instruction → List Instruction → LoopStats → Prop where
  | last {m : Mode} {t u : LoopTree} {n : LoopStats} (h : t.Becomes target m u n) :
      Becomes target m t.code u.code n
  | next {m : Mode} {t u : LoopTree} {n n' : LoopStats} {close : Instruction}
      {more more' : List Instruction} (h : t.Becomes target m u n)
      (closes : close.opcode = .loopEnd) (hmore : Becomes target .zero more more' n') :
      Becomes target m (t.code ++ close :: more) (u.code ++ close :: more') (n + n')

variable {target : Target} {m : Mode} {code code' : List Instruction} {n : LoopStats}

/-- What becomes of a stream is what the flattener writes for it. -/
theorem Becomes.resume_eq (h : Becomes target m code code' n) (output : List Instruction)
    (stats : LoopStats) (hfits : m.Fits output) :
    ∃ zero, m.resume target output stats code =
      .ok ⟨code'.reverse ++ output, zero, stats + n⟩ := by
  induction h generalizing output stats with
  | last h =>
    obtain ⟨zero, hrun⟩ := h.resume_eq output [] stats hfits (by simp [LoopEnded])
    rw [List.append_nil, run] at hrun
    exact ⟨zero, hrun⟩
  | @next m t u n n' close more more' h closes _ ih =>
    obtain ⟨zero, hrun⟩ :=
      h.resume_eq output (close :: more) stats hfits (by simp [LoopEnded, closes])
    obtain ⟨zero', hmore⟩ := ih (close :: (u.code.reverse ++ output)) (stats + n) (Mode.fits_zero _)
    refine ⟨zero', ?_⟩
    rw [hrun, run_close closes]
    exact hmore.trans (by simp [LoopStats.add_assoc])

/-- Something becomes of each stream that the flattener passes. -/
theorem exists_becomes {depth : Nat} (h : LoopTree.Closing depth code) (m : Mode)
    (output : List Instruction) (stats : LoopStats) {final : Flattener} (hfits : m.Fits output)
    (hrun : m.resume target output stats code = .ok final) :
    ∃ code' n, Becomes target m code code' n := by
  induction h generalizing m output stats with
  | last t =>
    obtain ⟨u, n, ht⟩ := t.exists_becomes m output [] stats hfits (by simp [LoopEnded])
      (by rwa [List.append_nil])
    exact ⟨_, _, .last ht⟩
  | @next t close depth more closes _ ih =>
    have hclose : LoopEnded (close :: more) := by simp [LoopEnded, closes]
    obtain ⟨u, n, ht⟩ := t.exists_becomes m output _ stats hfits hclose hrun
    obtain ⟨zero, hpassed⟩ := ht.resume_eq output _ stats hfits hclose
    rw [hpassed, run_close closes] at hrun
    obtain ⟨more', n', hmore⟩ := ih .zero _ _ (Mode.fits_zero _) hrun
    exact ⟨_, _, .next ht closes hmore⟩

/-- A pass that succeeds has found a partner for every opening bracket. -/
theorem closes_of_run {r final : Flattener} (h : run target r code = .ok final) :
    ∃ depth, code.foldlM enterLoop depth = some 0 := by
  fun_induction run target r code with
  | case1 => exact ⟨0, rfl⟩
  | case2 => cases h
  | case3 r i rest r' rest' hstep _ ih =>
    obtain ⟨depth, hwalk⟩ := ih h
    rcases step_cases hstep with ⟨hstart, -, rfl⟩ | ⟨parts, hstart, hparts, hloop⟩
    · by_cases hend : i.opcode = .loopEnd
      · exact ⟨depth + 1, by rw [List.foldlM_cons, enterLoop_end hend]; exact hwalk⟩
      · exact ⟨depth, by rw [List.foldlM_cons, enterLoop_outside ⟨hstart, hend⟩]; exact hwalk⟩
    obtain ⟨body, -, hclose, hrest⟩ := LoopParts.exists_tree hparts
    have hskip (h : parts.rest.foldlM enterLoop depth = some 0) :
        (i :: rest).foldlM enterLoop depth = some 0 := by
      rw [hrest]
      simp [enterLoop_start hstart, enterLoop_end hclose, LoopTree.enterLoop_code, h]
    have hfinish {r r' : Flattener} (finish : r.finishCell i parts.rest = .ok (r', rest')) :
        (i :: rest).foldlM enterLoop depth = some 0 := by
      rcases finishCell_cases finish with ⟨-, rfl⟩ | ⟨next, hnext, hbehind, -⟩
      · exact hskip hwalk
      · have houtside : next.OutsideLoops := by
          rcases hnext with hop | hop <;> simp [Instruction.OutsideLoops, hop]
        apply hskip
        rw [hbehind, List.foldlM_cons, enterLoop_outside houtside]
        exact hwalk
    cases hloop with
    | dead => exact ⟨depth, hskip hwalk⟩
    | kept =>
      -- the closing bracket is still to come, so one loop is open
      cases depth with
      | zero =>
        rw [hrest] at hwalk
        simp [LoopTree.enterLoop_code, enterLoop, hclose] at hwalk
      | succ depth =>
        refine ⟨depth, ?_⟩
        rw [List.foldlM_cons, enterLoop_start hstart]
        exact hwalk
    | pattern => exact ⟨depth, hskip hwalk⟩
    | clear _ _ finish => exact ⟨depth, hfinish finish⟩
    | multiply _ _ finish => exact ⟨depth, hfinish finish⟩

/-- **What the pass makes of a stream**, whatever its instructions: it
succeeds with a stream and counters exactly if these are what becomes of it. -/
theorem flattenWithStats_eq_ok_iff :
    flattenWithStats target code = .ok (code', n) ↔ Becomes target .plain code code' n := by
  have hfits : Mode.plain.Fits [] := by simp [Mode.Fits]
  constructor
  · intro h
    obtain ⟨final, hrun, hfinal⟩ := bind_eq_ok_iff.1 h
    obtain ⟨depth, hwalk⟩ := closes_of_run hrun
    obtain ⟨code'', n', hbecomes⟩ :=
      exists_becomes (LoopTree.Closing.of_enterLoop hwalk) .plain [] {} hfits hrun
    obtain ⟨zero, hrun'⟩ := hbecomes.resume_eq [] {} hfits
    obtain rfl := Except.ok.inj (hrun.symm.trans hrun')
    have hpair : (code'', n') = (code', n) := by simpa [pure, Except.pure] using hfinal
    cases hpair
    exact hbecomes
  · intro h
    obtain ⟨zero, hrun⟩ := h.resume_eq [] {} hfits
    refine bind_eq_ok_iff.2 ⟨_, hrun, ?_⟩
    simp [pure, Except.pure]

/-- The same without the counters. -/
theorem flatten_eq_ok_iff :
    flatten target code = .ok code' ↔ ∃ n, Becomes target .plain code code' n := by
  constructor
  · intro h
    obtain ⟨⟨code'', n⟩, hstats, hcode⟩ := bind_eq_ok_iff.1 h
    cases hcode
    exact ⟨n, flattenWithStats_eq_ok_iff.1 hstats⟩
  · rintro ⟨n, h⟩
    exact bind_eq_ok_iff.2 ⟨_, flattenWithStats_eq_ok_iff.2 h, rfl⟩

end Stream

end TapeCompiler
