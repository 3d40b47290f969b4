/-
TapeCompiler.Proofs.Blocks — the block structure of a stream.

A stream is flat, but its brackets give it a structure: `loopStart` is
closed by `loopEnd`, `guard` by `label`, and both kinds nest. The same
structure is said twice here.

* `Stream.enter` walks over the stream with a stack of open brackets, and
  `Stream.WellFormed` asks for an empty stack at the end. It can be run.
* `Tree` is the nested reading. Its constructors carry the proof that a
  step is no bracket and that two brackets belong together, so there is
  no tree that is not properly nested.

`Stream.nested_iff_exists_tree` says that the two agree. A tree is written
in the form of a list: every node holds what follows it, so that an
induction on a tree goes through a stream from left to right.
-/
import TapeCompiler.Instruction

namespace TapeCompiler

/-! ## 1. Brackets -/

/-- The opcode that closes what this one opens. -/
def Opcode.closer? : Opcode → Option Opcode
  | .loopStart => some .loopEnd
  | .guard => some .label
  | _ => none

namespace Instruction

/-- The instruction is no bracket. -/
def Plain (i : Instruction) : Prop :=
  i.opcode.opensBlock = false ∧ i.opcode.closesBlock = false

instance decidablePlain (i : Instruction) : Decidable i.Plain :=
  inferInstanceAs (Decidable (_ ∧ _))

/-- The instruction closes the block that `start` opens: it is the bracket
of that kind and carries the same label. -/
def Closes (close start : Instruction) : Prop :=
  start.opcode.closer? = some close.opcode ∧ start.value = close.value

instance decidableCloses (close start : Instruction) : Decidable (close.Closes start) :=
  inferInstanceAs (Decidable (_ ∧ _))

/-- There are two kinds of blocks. -/
theorem Closes.kinds {close start : Instruction} (h : close.Closes start) :
    start.opcode = .loopStart ∧ close.opcode = .loopEnd ∨
      start.opcode = .guard ∧ close.opcode = .label := by
  obtain ⟨hop, -⟩ := h
  cases hs : start.opcode <;> simp_all [Opcode.closer?]

theorem Closes.opens {close start : Instruction} (h : close.Closes start) :
    start.opcode.opensBlock = true := by
  rcases h.kinds with ⟨hs, -⟩ | ⟨hs, -⟩ <;> simp [hs, Opcode.opensBlock]

theorem Closes.not_opens {close start : Instruction} (h : close.Closes start) :
    close.opcode.opensBlock = false := by
  rcases h.kinds with ⟨-, hc⟩ | ⟨-, hc⟩ <;> simp [hc, Opcode.opensBlock]

theorem Closes.closes {close start : Instruction} (h : close.Closes start) :
    close.opcode.closesBlock = true := by
  rcases h.kinds with ⟨-, hc⟩ | ⟨-, hc⟩ <;> simp [hc, Opcode.closesBlock]

end Instruction

/-! ## 2. Well-formed streams -/

namespace Stream

/-- The brackets that are open after one more instruction, innermost first;
`none` if the instruction closes nothing or the wrong bracket. -/
def enter (opened : List Instruction) (i : Instruction) : Option (List Instruction) :=
  if i.opcode.opensBlock then some (i :: opened)
  else if i.opcode.closesBlock then
    match opened with
    | [] => none
    | start :: outer => if i.Closes start then some outer else none
  else some opened

/-- The labels of the blocks, in the order in which these are opened. -/
def labels (code : List Instruction) : List Int :=
  (code.filter (fun i => i.opcode.opensBlock)).map Instruction.value

/-- The brackets are properly nested, partners carry the same label, and
different pairs carry different labels. -/
structure WellFormed (code : List Instruction) : Prop where
  nested : code.foldlM enter [] = some []
  labels_nodup : (labels code).Nodup

instance decidableWellFormed (code : List Instruction) : Decidable (WellFormed code) :=
  decidable_of_iff (code.foldlM enter [] = some [] ∧ (labels code).Nodup)
    ⟨fun h => ⟨h.1, h.2⟩, fun h => ⟨h.nested, h.labels_nodup⟩⟩

@[simp] theorem labels_nil : labels [] = [] := rfl

/-- Each opening bracket brings its label. -/
theorem labels_cons_of_opens {i : Instruction} (h : i.opcode.opensBlock = true)
    (code : List Instruction) : labels (i :: code) = i.value :: labels code := by
  simp [labels, h]

theorem labels_cons_of_not_opens {i : Instruction} (h : i.opcode.opensBlock = false)
    (code : List Instruction) : labels (i :: code) = labels code := by
  simp [labels, h]

@[simp] theorem labels_append (code code' : List Instruction) :
    labels (code ++ code') = labels code ++ labels code' := by
  simp [labels]

end Stream

/-! ## 3. Trees -/

/-- A stream read as nested blocks. -/
inductive Tree where
  /-- The end of a block's body, or of the stream. -/
  | done
  /-- An instruction that is no bracket, and what follows it. -/
  | step (i : Instruction) (plain : i.Plain) (rest : Tree)
  /-- A block with its two brackets, and what follows it. -/
  | block (start : Instruction) (body : Tree) (close : Instruction) (closes : close.Closes start)
      (rest : Tree)

namespace Tree

/-- The stream that a tree is a reading of. -/
def code : Tree → List Instruction
  | done => []
  | step i _ rest => i :: rest.code
  | block start body close _ rest => start :: (body.code ++ close :: rest.code)

/-- A tree with straight-line code put before it. -/
def prepend : (steps : List Instruction) → (∀ i ∈ steps, i.Plain) → Tree → Tree
  | [], _, t => t
  | i :: steps, h, t =>
    step i (h i (List.mem_cons_self ..))
      (prepend steps (fun j hj => h j (List.mem_cons_of_mem _ hj)) t)

@[simp] theorem code_done : done.code = [] := rfl

@[simp] theorem code_step (i : Instruction) (plain : i.Plain) (rest : Tree) :
    (step i plain rest).code = i :: rest.code := rfl

@[simp] theorem code_block (start : Instruction) (body : Tree) (close : Instruction)
    (closes : close.Closes start) (rest : Tree) :
    (block start body close closes rest).code = start :: (body.code ++ close :: rest.code) := rfl

/-- Steps put before a tree stand before its stream. -/
@[simp] theorem code_prepend (steps : List Instruction) (h : ∀ i ∈ steps, i.Plain) (t : Tree) :
    (prepend steps h t).code = steps ++ t.code := by
  induction steps with
  | nil => rfl
  | cons i steps ih => simp [prepend, ih]

@[simp] theorem labels_step (i : Instruction) (plain : i.Plain) (rest : Tree) :
    Stream.labels (step i plain rest).code = Stream.labels rest.code :=
  Stream.labels_cons_of_not_opens plain.1 _

/-- A block has its own label, those of its body, and those behind it. -/
@[simp] theorem labels_block (start : Instruction) (body : Tree) (close : Instruction)
    (closes : close.Closes start) (rest : Tree) :
    Stream.labels (block start body close closes rest).code =
      start.value :: (Stream.labels body.code ++ Stream.labels rest.code) := by
  rw [code_block, Stream.labels_cons_of_opens closes.opens, Stream.labels_append,
    Stream.labels_cons_of_not_opens closes.not_opens]

/-- Only blocks have labels. -/
theorem labels_plain {steps : List Instruction} (h : ∀ i ∈ steps, i.Plain) :
    Stream.labels steps = [] := by
  induction steps with
  | nil => rfl
  | cons i steps ih =>
    rw [Stream.labels_cons_of_not_opens (h i (by simp)).1]
    exact ih (fun j hj => h j (by simp [hj]))

end Tree

/-! ## 4. The two readings agree -/

/-- A tree leaves the open brackets around it as they are. -/
theorem Tree.enter_code (t : Tree) (opened : List Instruction) :
    t.code.foldlM Stream.enter opened = some opened := by
  induction t generalizing opened with
  | done => rfl
  | step i plain rest ih =>
    have hi : Stream.enter opened i = some opened := by
      simp [Stream.enter, plain.1, plain.2]
    simp [hi, ih]
  | block start body close closes rest ihb ihr =>
    have hs : Stream.enter opened start = some (start :: opened) := by
      simp [Stream.enter, closes.opens]
    have hc : Stream.enter (start :: opened) close = some opened := by
      simp [Stream.enter, closes.not_opens, closes.closes, closes]
    simp [hs, ihb, hc, ihr]

/-- The stream closes the open brackets one by one, innermost first, with a
tree before each of them and a last one behind. -/
inductive ClosesAll : List Instruction → List Instruction → Prop where
  | last (t : Tree) : ClosesAll [] t.code
  | next (t : Tree) {start close : Instruction} {outer more : List Instruction}
      (closes : close.Closes start) (rest : ClosesAll outer more) :
      ClosesAll (start :: outer) (t.code ++ close :: more)

namespace ClosesAll

/-- A plain instruction belongs to the tree that follows it. -/
theorem cons_plain {opened code : List Instruction} {i : Instruction} (plain : i.Plain)
    (h : ClosesAll opened code) : ClosesAll opened (i :: code) := by
  cases h with
  | last t => exact last (.step i plain t)
  | next t closes rest => exact next (.step i plain t) closes rest

/-- An opening bracket takes the first closing one for itself. -/
theorem cons_open {opened code : List Instruction} {start : Instruction}
    (h : ClosesAll (start :: opened) code) : ClosesAll opened (start :: code) := by
  cases h with
  | next body closes rest =>
    cases rest with
    | last t => exact last (.block start body _ closes t)
    | next t closes' rest =>
      have := next (.block start body _ closes t) closes' rest
      simpa using this

/-- What the walk over brackets accepts closes all that were open. -/
theorem of_enter {code opened : List Instruction} (h : code.foldlM Stream.enter opened = some []) :
    ClosesAll opened code := by
  induction code generalizing opened with
  | nil =>
    cases opened with
    | nil => exact last .done
    | cons => simp at h
  | cons i code ih =>
    rw [List.foldlM_cons] at h
    obtain ⟨inner, he, h⟩ := Option.bind_eq_some_iff.1 h
    have hrest := ih h
    unfold Stream.enter at he
    split at he
    · cases he
      exact cons_open hrest
    split at he
    · cases opened with
      | nil => simp at he
      | cons start outer =>
        by_cases closes : i.Closes start
        · simp only [closes, if_true, Option.some.injEq] at he
          subst he
          exact next .done closes hrest
        · simp [closes] at he
    · rename_i hopen hclose
      cases he
      exact cons_plain ⟨by simpa using hopen, by simpa using hclose⟩ hrest

end ClosesAll

/-- **The brackets of a stream are properly nested exactly if the stream can
be read as a tree.** -/
theorem Stream.nested_iff_exists_tree {code : List Instruction} :
    code.foldlM Stream.enter [] = some [] ↔ ∃ t : Tree, t.code = code := by
  constructor
  · intro h
    have hall := ClosesAll.of_enter h
    cases hall with
    | last t => exact ⟨t, rfl⟩
  · rintro ⟨t, rfl⟩
    exact t.enter_code []

/-- Proofs about well-formed streams start with this, and go on by induction
on the tree. -/
theorem Stream.WellFormed.exists_tree {code : List Instruction} (h : WellFormed code) :
    ∃ t : Tree, t.code = code :=
  Stream.nested_iff_exists_tree.1 h.nested

/-- Trees are nested by construction, so only the labels are in question. -/
theorem Tree.wellFormed_code {t : Tree} (h : (Stream.labels t.code).Nodup) :
    Stream.WellFormed t.code :=
  ⟨t.enter_code [], h⟩

end TapeCompiler
