/-
TapeCompiler.Proofs.LoopNesting — the loops of any stream.

Here a stream is read by its loop brackets alone. Guards and labels count as
steps like all others, and what is written in a bracket's value plays no
part, so this reading exists for streams that are not well-formed.

* `LoopTree` is the nested reading. Its constructors carry the proof that a
  step is no bracket of a loop, so every tree is properly nested.
* `Stream.enterLoop` walks over a stream and counts the open loops;
  `Stream.loopsNested_iff` says that the two agree.
* `LoopParts.exists_tree` says that the flattener's search for the end of a
  loop cuts out a tree, and `LoopParts.find?_tree` that it passes trees.
-/
import TapeCompiler.Flatten

namespace TapeCompiler

/-! ## 1. Trees of loops -/

/-- The instruction is no bracket of a loop. -/
def Instruction.OutsideLoops (i : Instruction) : Prop :=
  i.opcode ≠ .loopStart ∧ i.opcode ≠ .loopEnd

/-- A stream read as nested loops. -/
inductive LoopTree where
  /-- The end of a loop's body, or of the stream. -/
  | done
  /-- An instruction that is no bracket of a loop, and what follows it. -/
  | step (i : Instruction) (outside : i.OutsideLoops) (rest : LoopTree)
  /-- A loop with its two brackets, and what follows it. -/
  | loop (start : Instruction) (body : LoopTree) (close : Instruction)
      (opens : start.opcode = .loopStart) (closes : close.opcode = .loopEnd) (rest : LoopTree)

namespace LoopTree

/-- The stream that a tree is a reading of. -/
def code : LoopTree → List Instruction
  | done => []
  | step i _ rest => i :: rest.code
  | loop start body close _ _ rest => start :: (body.code ++ close :: rest.code)

/-- How many loops a tree has. -/
def loops : LoopTree → Nat
  | done => 0
  | step _ _ rest => rest.loops
  | loop _ body _ _ _ rest => body.loops + rest.loops + 1

/-- A tree with steps put before it. -/
def prepend : (steps : List Instruction) → (∀ i ∈ steps, i.OutsideLoops) → LoopTree → LoopTree
  | [], _, t => t
  | i :: steps, h, t =>
    step i (h i (List.mem_cons_self ..))
      (prepend steps (fun j hj => h j (List.mem_cons_of_mem _ hj)) t)

@[simp] theorem code_done : done.code = [] := rfl

@[simp] theorem code_step (i : Instruction) (outside : i.OutsideLoops) (rest : LoopTree) :
    (step i outside rest).code = i :: rest.code := rfl

@[simp] theorem code_loop (start : Instruction) (body : LoopTree) (close : Instruction)
    (opens : start.opcode = .loopStart) (closes : close.opcode = .loopEnd) (rest : LoopTree) :
    (loop start body close opens closes rest).code = start :: (body.code ++ close :: rest.code) :=
  rfl

@[simp] theorem code_prepend (steps : List Instruction) (h : ∀ i ∈ steps, i.OutsideLoops)
    (t : LoopTree) : (prepend steps h t).code = steps ++ t.code := by
  induction steps with
  | nil => rfl
  | cons i steps ih => simp [prepend, ih]

end LoopTree

/-! ## 2. Counting open loops -/

namespace Stream

/-- How many loops are open after one more instruction; `none` if it closes
a loop and none is open. -/
def enterLoop (depth : Nat) (i : Instruction) : Option Nat :=
  match i.opcode with
  | .loopStart => some (depth + 1)
  | .loopEnd =>
    match depth with
    | 0 => none
    | depth + 1 => some depth
  | _ => some depth

theorem enterLoop_start {i : Instruction} (h : i.opcode = .loopStart) (depth : Nat) :
    enterLoop depth i = some (depth + 1) := by
  simp [enterLoop, h]

theorem enterLoop_end {i : Instruction} (h : i.opcode = .loopEnd) (depth : Nat) :
    enterLoop (depth + 1) i = some depth := by
  simp [enterLoop, h]

theorem enterLoop_outside {i : Instruction} (h : i.OutsideLoops) (depth : Nat) :
    enterLoop depth i = some depth := by
  obtain ⟨hstart, hend⟩ := h
  unfold enterLoop
  split <;> simp_all

end Stream

namespace LoopTree

theorem enterLoop_code (t : LoopTree) (depth : Nat) :
    t.code.foldlM Stream.enterLoop depth = some depth := by
  induction t generalizing depth with
  | done => rfl
  | step i outside rest ih => simp [Stream.enterLoop_outside outside, ih]
  | loop start body close opens closes rest ihb ihr =>
    simp [Stream.enterLoop_start opens, Stream.enterLoop_end closes, ihb, ihr]

/-- The stream closes this many loops one by one, with a tree before each
closing bracket and a last one behind. -/
inductive Closing : Nat → List Instruction → Prop where
  | last (t : LoopTree) : Closing 0 t.code
  | next (t : LoopTree) {close : Instruction} {depth : Nat} {more : List Instruction}
      (closes : close.opcode = .loopEnd) (rest : Closing depth more) :
      Closing (depth + 1) (t.code ++ close :: more)

theorem Closing.cons_outside {depth : Nat} {code : List Instruction} {i : Instruction}
    (outside : i.OutsideLoops) (h : Closing depth code) : Closing depth (i :: code) := by
  cases h with
  | last t => exact last (.step i outside t)
  | next t closes rest => exact next (.step i outside t) closes rest

/-- An opening bracket takes the first closing one for itself. -/
theorem Closing.cons_start {depth : Nat} {code : List Instruction} {start : Instruction}
    (opens : start.opcode = .loopStart) (h : Closing (depth + 1) code) :
    Closing depth (start :: code) := by
  cases h with
  | next body closes rest =>
    cases rest with
    | last t => exact last (.loop start body _ opens closes t)
    | next t closes' rest =>
      have := next (.loop start body _ opens closes t) closes' rest
      simpa using this

theorem Closing.of_enterLoop {code : List Instruction} {depth : Nat}
    (h : code.foldlM Stream.enterLoop depth = some 0) : Closing depth code := by
  induction code generalizing depth with
  | nil =>
    cases h
    exact last .done
  | cons i code ih =>
    rw [List.foldlM_cons] at h
    obtain ⟨inner, he, h⟩ := Option.bind_eq_some_iff.1 h
    have hrest := ih h
    by_cases hstart : i.opcode = .loopStart
    · rw [Stream.enterLoop_start hstart] at he
      cases he
      exact hrest.cons_start hstart
    by_cases hend : i.opcode = .loopEnd
    · cases depth with
      | zero => simp [Stream.enterLoop, hend] at he
      | succ depth =>
        rw [Stream.enterLoop_end hend] at he
        cases he
        exact next .done hend hrest
    · rw [Stream.enterLoop_outside ⟨hstart, hend⟩] at he
      cases he
      exact hrest.cons_outside ⟨hstart, hend⟩

end LoopTree

/-- **The loops of a stream are properly nested exactly if the stream can be
read as a tree of loops.** -/
theorem Stream.loopsNested_iff {code : List Instruction} :
    code.foldlM Stream.enterLoop 0 = some 0 ↔ ∃ t : LoopTree, t.code = code := by
  constructor
  · intro h
    have hall := LoopTree.Closing.of_enterLoop h
    cases hall with
    | last t => exact ⟨t, rfl⟩
  · rintro ⟨t, rfl⟩
    exact t.enterLoop_code 0

/-! ## 3. The search for the end of a loop -/

namespace LoopParts

/-- Whole loops are passed in the search for a closing bracket. -/
theorem find?_tree (t : LoopTree) (depth : Nat) (passed more : List Instruction) :
    find? depth passed (t.code ++ more) = find? depth (t.code.reverse ++ passed) more := by
  induction t generalizing depth passed more with
  | done => rfl
  | step i outside rest ih =>
    have hskip : find? depth passed (i :: (rest.code ++ more)) =
        find? depth (i :: passed) (rest.code ++ more) := by
      obtain ⟨hstart, hend⟩ := outside
      cases hop : i.opcode <;> simp_all [find?]
    simp [hskip, ih]
  | loop start body close opens closes rest ihb ihr => simp [find?, opens, closes, ihb, ihr]

/-- The parts of a loop are those of its node. -/
theorem find?_loop (body : LoopTree) {close : Instruction} (closes : close.opcode = .loopEnd)
    (more : List Instruction) :
    find? 0 [] (body.code ++ close :: more) = some ⟨body.code, close, more⟩ := by
  rw [find?_tree]
  simp [find?, closes]

/-- What the search passes closes the loops that are open at its start. -/
theorem enterLoop_of_find? {depth : Nat} {passed code : List Instruction} {parts : LoopParts}
    (h : find? depth passed code = some parts) :
    ∃ body, parts.body = passed.reverse ++ body ∧ code = body ++ parts.close :: parts.rest ∧
      parts.close.opcode = .loopEnd ∧ body.foldlM Stream.enterLoop depth = some 0 := by
  induction code generalizing depth passed with
  | nil => simp [find?] at h
  | cons i rest ih =>
    have hlonger {depth' : Nat} (h : find? depth' (i :: passed) rest = some parts)
        (he : Stream.enterLoop depth i = some depth') :
        ∃ body, parts.body = passed.reverse ++ body ∧
          i :: rest = body ++ parts.close :: parts.rest ∧ parts.close.opcode = .loopEnd ∧
          body.foldlM Stream.enterLoop depth = some 0 := by
      obtain ⟨body, hbody, hcode, hclose, hwalk⟩ := ih h
      refine ⟨i :: body, by simp [hbody], by rw [hcode]; rfl, hclose, ?_⟩
      rw [List.foldlM_cons, he]
      exact hwalk
    unfold find? at h
    split at h
    · rename_i hop
      exact hlonger h (Stream.enterLoop_start hop depth)
    · rename_i hop
      split at h
      · cases h
        exact ⟨[], by simp, rfl, hop, rfl⟩
      · exact hlonger h (Stream.enterLoop_end hop _)
    · rename_i hstart hend
      exact hlonger h (Stream.enterLoop_outside ⟨hstart, hend⟩ depth)

/-- The body that the search cuts out is a tree. -/
theorem exists_tree {code : List Instruction} {parts : LoopParts}
    (h : find? 0 [] code = some parts) :
    ∃ body : LoopTree, parts.body = body.code ∧ parts.close.opcode = .loopEnd ∧
      code = body.code ++ parts.close :: parts.rest := by
  obtain ⟨body, hbody, hcode, hclose, hwalk⟩ := enterLoop_of_find? h
  obtain ⟨t, rfl⟩ := Stream.loopsNested_iff.1 hwalk
  exact ⟨t, by simpa using hbody, hclose, hcode⟩

end LoopParts

end TapeCompiler
