/-
TapeCompiler.Proofs.Pieces — the pieces of a stream, instruction by instruction.

An emitter writes some pieces at the start, then those of each instruction,
then some at the end. `Emitter.piecesOf` is the middle part, and
`Emitter.stateAfter` what the emitter remembers behind some instructions.

* `Emitter.pieces_emit`: an emission that came to its end is these three
  parts in a row.
* `Emitter.emit_of_passes`: so is one in which every instruction was
  written (`Emitter.Passes`), whatever happened at the end.
* `Emitter.mem_piecesOf_iff`: a piece stands among those of one instruction.
* `Emitter.Writes.forall_emit`: what holds of the pieces of every step, as
  long as the states are as they should be, holds of all pieces, also when
  the work breaks off.
-/
import TapeCompiler.Emission

namespace TapeCompiler

/-- A text within an interpolated one stands there as it is. -/
@[simp] theorem toString_text (text : String) : toString text = text := rfl

namespace Emitter

variable {σ α : Type} (e : Emitter σ α)

/-- The state behind an instruction that is written. -/
def next (s : σ) (i : Instruction) : σ :=
  match (e.step s i).result with
  | .ok s' => s'
  | .error _ => s

/-- The state behind some instructions. -/
def stateAfter (s : σ) (code : List Instruction) : σ := code.foldl e.next s

/-- The pieces of some instructions. -/
def piecesOf (s : σ) : List Instruction → List α
  | [] => []
  | i :: rest => (e.step s i).pieces ++ piecesOf (e.next s i) rest

theorem piecesOf_append (s : σ) (code code' : List Instruction) :
    e.piecesOf s (code ++ code') = e.piecesOf s code ++ e.piecesOf (e.stateAfter s code) code' := by
  induction code generalizing s with
  | nil => rfl
  | cons i rest ih =>
    rw [List.cons_append, piecesOf, piecesOf, ih, List.append_assoc]
    rfl

variable {e}

theorem run_cons_of_ok {s s' : σ} {i : Instruction} (h : (e.step s i).result = .ok s')
    (done : Array α) (rest : List Instruction) :
    e.run done s (i :: rest) = e.run (done.append (e.step s i).pieces.toArray) s' rest := by
  simp [run, h]

/-- Every instruction is written. -/
def Passes (e : Emitter σ α) (s : σ) : List Instruction → Prop
  | [] => True
  | i :: rest => (e.step s i).result = .ok (e.next s i) ∧ e.Passes (e.next s i) rest

theorem next_of_ok {s s' : σ} {i : Instruction} (h : (e.step s i).result = .ok s') :
    e.next s i = s' := by
  simp [next, h]

@[simp] theorem stateAfter_nil (s : σ) : e.stateAfter s [] = s := rfl

@[simp] theorem stateAfter_cons (s : σ) (i : Instruction) (rest : List Instruction) :
    e.stateAfter s (i :: rest) = e.stateAfter (e.next s i) rest := rfl

theorem stateAfter_append (s : σ) (code code' : List Instruction) :
    e.stateAfter s (code ++ code') = e.stateAfter (e.stateAfter s code) code' :=
  List.foldl_append

theorem passes_append {s : σ} {code code' : List Instruction} :
    e.Passes s (code ++ code') ↔ e.Passes s code ∧ e.Passes (e.stateAfter s code) code' := by
  induction code generalizing s with
  | nil => simp [Passes]
  | cons i rest ih => simp [Passes, ih, and_assoc]

/-- The emitter passes a stream if it writes each instruction in any state. -/
theorem passes_of_forall {code : List Instruction}
    (h : ∀ i ∈ code, ∀ s, ∃ s', (e.step s i).result = .ok s') (s : σ) : e.Passes s code := by
  induction code generalizing s with
  | nil => trivial
  | cons i rest ih =>
    obtain ⟨s', hs'⟩ := h i (List.mem_cons_self ..) s
    exact ⟨by rw [hs', next_of_ok hs'], ih (fun j hj => h j (List.mem_cons_of_mem _ hj)) _⟩

theorem run_of_passes {done : Array α} {s : σ} {code : List Instruction} (h : e.Passes s code) :
    (e.run done s code).pieces.toList =
        done.toList ++ e.piecesOf s code ++ (e.finish (e.stateAfter s code)).pieces ∧
      (e.run done s code).outcome = (e.finish (e.stateAfter s code)).result := by
  induction code generalizing done s with
  | nil => simp [run, piecesOf]
  | cons i rest ih =>
    obtain ⟨hi, hrest⟩ := h
    rw [run_cons_of_ok hi, piecesOf, stateAfter_cons]
    obtain ⟨hpieces, houtcome⟩ := @ih (done.append (e.step s i).pieces.toArray) _ hrest
    refine ⟨?_, houtcome⟩
    rw [hpieces]
    simp only [Array.append_eq_append, Array.toList_append, List.append_assoc]

/-- What an emission wrote, if every instruction was written. -/
theorem emit_of_passes {s : σ} (hstart : e.start.result = .ok s) {code : List Instruction}
    (h : e.Passes s code) :
    (e.emit code).pieces.toList =
        e.start.pieces ++ e.piecesOf s code ++ (e.finish (e.stateAfter s code)).pieces ∧
      (e.emit code).outcome = (e.finish (e.stateAfter s code)).result := by
  simp only [emit, hstart]
  exact run_of_passes h

theorem passes_of_run {done : Array α} {s : σ} {code : List Instruction} {warnings : List Warning}
    (h : (e.run done s code).outcome = .ok warnings) : e.Passes s code := by
  induction code generalizing done s with
  | nil => trivial
  | cons i rest ih =>
    cases hresult : (e.step s i).result with
    | error fault =>
      simp only [run, hresult] at h
      cases h
    | ok s' =>
      rw [run_cons_of_ok hresult] at h
      have hnext := next_of_ok hresult
      exact ⟨by rw [hresult, hnext], hnext ▸ ih h⟩

/-- An emission that came to its end wrote every instruction. -/
theorem passes_of_emit {s : σ} (hstart : e.start.result = .ok s) {code : List Instruction}
    {warnings : List Warning} (h : (e.emit code).outcome = .ok warnings) : e.Passes s code := by
  simp only [emit, hstart] at h
  exact passes_of_run h

/-- What an emission wrote, if it came to the end. -/
theorem pieces_emit {code : List Instruction} {warnings : List Warning}
    (h : (e.emit code).outcome = .ok warnings) :
    ∃ s, e.start.result = .ok s ∧
      (e.emit code).pieces.toList =
        e.start.pieces ++ e.piecesOf s code ++ (e.finish (e.stateAfter s code)).pieces ∧
      (e.finish (e.stateAfter s code)).result = .ok warnings := by
  cases hstart : e.start.result with
  | error fault =>
    simp only [emit, hstart] at h
    cases h
  | ok s =>
    obtain ⟨hpieces, houtcome⟩ := emit_of_passes hstart (passes_of_emit hstart h)
    exact ⟨s, rfl, hpieces, houtcome ▸ h⟩

/-- A piece of some instructions is a piece of one of them. -/
theorem mem_piecesOf_iff {s : σ} {code : List Instruction} {piece : α} :
    piece ∈ e.piecesOf s code ↔
      ∃ k i, code[k]? = some i ∧ piece ∈ (e.step (e.stateAfter s (code.take k)) i).pieces := by
  induction code generalizing s with
  | nil => simp [piecesOf]
  | cons i rest ih =>
    rw [piecesOf, List.mem_append, ih]
    constructor
    · rintro (h | ⟨k, j, hj, h⟩)
      · exact ⟨0, i, rfl, h⟩
      · exact ⟨k + 1, j, hj, h⟩
    · rintro ⟨_ | k, j, hj, h⟩
      · cases hj
        exact .inl h
      · exact .inr ⟨k, j, hj, h⟩

/-! ## Comments -/

section Comments

variable (on : Bool) (comment : σ → Instruction → α)

@[simp] theorem start_withComments : (e.withComments on comment).start = e.start := by
  cases on <;> rfl

@[simp] theorem finish_withComments : (e.withComments on comment).finish = e.finish := by
  cases on <;> rfl

theorem result_withComments (s : σ) (i : Instruction) :
    ((e.withComments on comment).step s i).result = (e.step s i).result := by
  cases on <;> rfl

theorem next_withComments (s : σ) (i : Instruction) :
    (e.withComments on comment).next s i = e.next s i := by
  simp only [next, result_withComments]

/-- They neither help nor hinder. -/
theorem passes_withComments (s : σ) (code : List Instruction) :
    (e.withComments on comment).Passes s code ↔ e.Passes s code := by
  induction code generalizing s with
  | nil => exact Iff.rfl
  | cons i rest ih => simp only [Passes, result_withComments, next_withComments, ih]

end Comments

/-! ## Every piece -/

variable {holds : σ → Prop} {good : α → Prop}

/-- What steps write is good, as long as a condition holds of the states, and
it goes on to hold. -/
def Keeps (e : Emitter σ α) (holds : σ → Prop) (good : α → Prop) : Prop :=
  ∀ s i, holds s → (∀ piece ∈ (e.step s i).pieces, good piece) ∧
    ∀ s', (e.step s i).result = .ok s' → holds s'

/-- All that is written is good, the start and the end included. -/
structure Writes (e : Emitter σ α) (holds : σ → Prop) (good : α → Prop) : Prop where
  start : (∀ piece ∈ e.start.pieces, good piece) ∧ ∀ s, e.start.result = .ok s → holds s
  step : e.Keeps holds good
  finish : ∀ s, holds s → ∀ piece ∈ (e.finish s).pieces, good piece

theorem Keeps.stateAfter (h : e.Keeps holds good) {s : σ} (hs : holds s)
    (code : List Instruction) : holds (e.stateAfter s code) := by
  induction code generalizing s with
  | nil => exact hs
  | cons i rest ih =>
    refine ih ?_
    unfold next
    split
    · exact (h s i hs).2 _ ‹_›
    · exact hs

theorem Keeps.forall_piecesOf (h : e.Keeps holds good) {s : σ} (hs : holds s)
    (code : List Instruction) : ∀ piece ∈ e.piecesOf s code, good piece := by
  intro piece hpiece
  obtain ⟨k, i, -, hmem⟩ := mem_piecesOf_iff.1 hpiece
  exact (h _ i (h.stateAfter hs _)).1 piece hmem

theorem forall_append {done : Array α} (hdone : ∀ piece ∈ done.toList, good piece)
    {pieces : List α} (hpieces : ∀ piece ∈ pieces, good piece) :
    ∀ piece ∈ (done.append pieces.toArray).toList, good piece := by
  simp only [Array.append_eq_append, Array.toList_append]
  exact List.forall_mem_append.2 ⟨hdone, hpieces⟩

theorem Writes.forall_run (h : e.Writes holds good) {done : Array α}
    (hdone : ∀ piece ∈ done.toList, good piece) {s : σ} (hs : holds s)
    (code : List Instruction) : ∀ piece ∈ (e.run done s code).pieces.toList, good piece := by
  induction code generalizing done s with
  | nil => exact forall_append hdone (h.finish s hs)
  | cons i rest ih =>
    obtain ⟨hpieces, hstate⟩ := h.step s i hs
    simp only [run]
    cases hresult : (e.step s i).result with
    | error fault => exact forall_append hdone hpieces
    | ok s' => exact ih (forall_append hdone hpieces) (hstate s' hresult)

/-- **All pieces are good.** -/
theorem Writes.forall_emit (h : e.Writes holds good) (code : List Instruction) :
    ∀ piece ∈ (e.emit code).pieces.toList, good piece := by
  unfold emit
  cases hresult : e.start.result with
  | error fault => exact h.start.1
  | ok s => exact h.forall_run h.start.1 (h.start.2 s hresult) code

theorem Writes.mono (h : e.Writes holds good) {good' : α → Prop}
    (hgood : ∀ piece, good piece → good' piece) : e.Writes holds good' :=
  ⟨⟨fun piece hpiece => hgood piece (h.start.1 piece hpiece), h.start.2⟩,
    fun s i hs => ⟨fun piece hpiece => hgood piece ((h.step s i hs).1 piece hpiece),
      (h.step s i hs).2⟩,
    fun s hs piece hpiece => hgood piece (h.finish s hs piece hpiece)⟩

/-- So are they with comments, if these are good. -/
theorem Writes.annotated (h : e.Writes holds good) {comment : σ → Instruction → α}
    (hcomment : ∀ s i, good (comment s i)) : (e.annotated comment).Writes holds good :=
  ⟨h.start, fun s i hs => ⟨List.forall_mem_cons.2 ⟨hcomment s i, (h.step s i hs).1⟩,
    (h.step s i hs).2⟩, h.finish⟩

end Emitter

end TapeCompiler
