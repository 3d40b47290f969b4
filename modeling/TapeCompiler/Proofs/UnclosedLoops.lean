/-
TapeCompiler.Proofs.UnclosedLoops — which loop a failing pass names.

`Stream.openLoops` goes over a stream with a stack of the places where
loops were opened. A closing bracket takes the innermost one off, and is
ignored if there is none. What is on the stack at the end was never closed
(`Stream.Unclosed`).

The flattener has no such stack. It looks for the end of each loop it comes
to, and leaves out the bodies of the loops that it drops or flattens. Still
it misses no unclosed loop: what it leaves out is nested on its own, so
every step leaves the open loops of the stream as they are
(`Flattener.sameOpen_of_step`), and the first bracket without a partner
that it comes to is the leftmost one.

No other failure is left. With values that fit nothing overflows, and the
walk for the products of a loop meets nothing that it refuses, because the
walks before it have ruled that out.
-/
import TapeCompiler.Proofs.FlattenBounds
import TapeCompiler.Proofs.LoopNesting
import Mathlib.Order.Bounds.Basic

namespace TapeCompiler

/-! ## 1. The loops left open -/

namespace Stream

/-- The places of the loops that are open behind a stream, innermost first.
The stream starts at place `index`, where those in `stack` are open. -/
def openLoops (index : Nat) (stack : List Nat) : List Instruction → List Nat
  | [] => stack
  | i :: rest =>
    match i.opcode with
    | .loopStart => openLoops (index + 1) (index :: stack) rest
    | .loopEnd => openLoops (index + 1) stack.tail rest
    | _ => openLoops (index + 1) stack rest

/-- The instruction at this place opens a loop that is never closed. -/
def Unclosed (code : List Instruction) (k : Nat) : Prop := k ∈ openLoops 0 [] code

instance (code : List Instruction) (k : Nat) : Decidable (Unclosed code k) :=
  inferInstanceAs (Decidable (k ∈ openLoops 0 [] code))

section OpenLoops

variable {i : Instruction}

theorem openLoops_start (h : i.opcode = .loopStart) (index : Nat) (stack : List Nat)
    (rest : List Instruction) :
    openLoops index stack (i :: rest) = openLoops (index + 1) (index :: stack) rest := by
  simp [openLoops, h]

theorem openLoops_end (h : i.opcode = .loopEnd) (index : Nat) (stack : List Nat)
    (rest : List Instruction) :
    openLoops index stack (i :: rest) = openLoops (index + 1) stack.tail rest := by
  simp [openLoops, h]

theorem openLoops_outside (h : i.OutsideLoops) (index : Nat) (stack : List Nat)
    (rest : List Instruction) :
    openLoops index stack (i :: rest) = openLoops (index + 1) stack rest := by
  obtain ⟨hstart, hend⟩ := h
  cases hop : i.opcode <;> simp_all [openLoops]

/-- Whole loops leave open what was open before them. -/
theorem openLoops_tree (t : LoopTree) (index : Nat) (stack : List Nat)
    (more : List Instruction) :
    openLoops index stack (t.code ++ more) = openLoops (index + t.code.length) stack more := by
  induction t generalizing index stack more with
  | done => rfl
  | step i outside rest ih =>
    rw [LoopTree.code_step, List.cons_append, openLoops_outside outside, ih, List.length_cons]
    congr 1
    omega
  | loop start body close opens closes rest ihb ihr =>
    rw [LoopTree.code_loop, List.cons_append, List.append_assoc, List.cons_append,
      openLoops_start opens, ihb, openLoops_end closes, List.tail_cons, ihr]
    congr 1
    simp only [List.length_cons, List.length_append]
    omega

/-- What is open at the end was open before, or was opened here. -/
theorem mem_openLoops {code : List Instruction} {index k : Nat} {stack : List Nat}
    (h : k ∈ openLoops index stack code) :
    k ∈ stack ∨ ∃ j start, k = index + j ∧ code[j]? = some start ∧
      start.opcode = .loopStart := by
  induction code generalizing index stack with
  | nil => exact .inl h
  | cons i rest ih =>
    have hlater : (∃ j start, k = index + 1 + j ∧ rest[j]? = some start ∧
        start.opcode = .loopStart) →
        ∃ j start, k = index + j ∧ (i :: rest)[j]? = some start ∧
          start.opcode = .loopStart := by
      rintro ⟨j, start, rfl, hj, hstart⟩
      exact ⟨j + 1, start, by omega, by simpa using hj, hstart⟩
    by_cases hstart : i.opcode = .loopStart
    · rw [openLoops_start hstart] at h
      rcases ih h with hmem | hmem
      · rcases List.mem_cons.1 hmem with rfl | hmem
        · exact .inr ⟨0, i, rfl, rfl, hstart⟩
        · exact .inl hmem
      · exact .inr (hlater hmem)
    by_cases hend : i.opcode = .loopEnd
    · rw [openLoops_end hend] at h
      exact (ih h).imp List.mem_of_mem_tail hlater
    · rw [openLoops_outside ⟨hstart, hend⟩] at h
      exact (ih h).imp id hlater

/-- A loop whose end is not found stays open, with the loops that are open
inside it. -/
theorem mem_openLoops_of_find? {code passed : List Instruction} {stack : List Nat}
    {index k : Nat} (inner : List Nat) (h : LoopParts.find? inner.length passed code = none) :
    k ∈ openLoops index (inner ++ k :: stack) code := by
  induction code generalizing inner passed index with
  | nil => simp [openLoops]
  | cons i rest ih =>
    unfold LoopParts.find? at h
    split at h
    · rename_i hstart
      rw [openLoops_start hstart]
      exact ih (index :: inner) h
    · rename_i hend
      rw [openLoops_end hend]
      cases inner with
      | nil => cases h
      | cons j inner => exact ih inner h
    · rename_i hstart hend
      rw [openLoops_outside ⟨hstart, hend⟩]
      exact ih inner h

/-- The bracket that opens a loop without an end is the leftmost one. -/
theorem isLeast_of_find? (hstart : i.opcode = .loopStart) {rest : List Instruction}
    (h : LoopParts.find? 0 [] rest = none) (index : Nat) :
    IsLeast {k | k ∈ openLoops index [] (i :: rest)} index := by
  constructor
  · show index ∈ openLoops index [] (i :: rest)
    rw [openLoops_start hstart]
    exact mem_openLoops_of_find? [] h
  · intro k hk
    rcases mem_openLoops hk with hmem | ⟨j, start, rfl, -⟩
    · cases hmem
    · exact Nat.le_add_right _ _

end OpenLoops

end Stream

/-! ## 2. The pass and the open loops -/

namespace Stream

/-- The second stream is the end of the first, and what comes before it has
no share in the loops left open. -/
def SameOpen (code rest : List Instruction) : Prop :=
  ∃ passed, code = passed ++ rest ∧
    ∀ index, openLoops index [] code = openLoops (index + passed.length) [] rest

namespace SameOpen

variable {i : Instruction} {code rest more : List Instruction} {parts : LoopParts}

theorem refl (code : List Instruction) : SameOpen code code := ⟨[], rfl, fun _ => rfl⟩

theorem trans (h : SameOpen code rest) (h' : SameOpen rest more) : SameOpen code more := by
  obtain ⟨passed, rfl, hopen⟩ := h
  obtain ⟨passed', rfl, hopen'⟩ := h'
  refine ⟨passed ++ passed', (List.append_assoc ..).symm, fun index => ?_⟩
  rw [hopen, hopen', List.length_append, Nat.add_assoc]

/-- With no loop open, a closing bracket counts as little as any other step. -/
theorem skip (h : i.opcode ≠ .loopStart) : SameOpen (i :: rest) rest := by
  refine ⟨[i], rfl, fun index => ?_⟩
  by_cases hend : i.opcode = .loopEnd
  · rw [openLoops_end hend]
    rfl
  · rw [openLoops_outside ⟨h, hend⟩]
    rfl

/-- A loop with its end can be left out. -/
theorem loop (hstart : i.opcode = .loopStart) (hparts : LoopParts.find? 0 [] rest = some parts) :
    SameOpen (i :: rest) parts.rest := by
  obtain ⟨body, -, hclose, rfl⟩ := LoopParts.exists_tree hparts
  refine ⟨i :: body.code ++ [parts.close], by simp, fun index => ?_⟩
  rw [openLoops_start hstart, openLoops_tree, openLoops_end hclose]
  congr 1
  simp only [List.length_cons, List.length_append, List.length_nil]
  omega

/-- The opening bracket of a loop with an end can be left out, too: then
the closing bracket is ignored. -/
theorem enter (hstart : i.opcode = .loopStart)
    (hparts : LoopParts.find? 0 [] rest = some parts) : SameOpen (i :: rest) rest := by
  obtain ⟨body, -, hclose, rfl⟩ := LoopParts.exists_tree hparts
  refine ⟨[i], rfl, fun index => ?_⟩
  rw [openLoops_start hstart, openLoops_tree, openLoops_tree, openLoops_end hclose,
    openLoops_end hclose]
  rfl

end SameOpen

end Stream

namespace Flattener

variable {target : Target} {r r' : Flattener} {i : Instruction} {rest rest' : List Instruction}

theorem sameOpen_of_finishCell {start : Instruction}
    (h : r.finishCell start rest = .ok (r', rest')) : Stream.SameOpen rest rest' := by
  rcases finishCell_cases h with ⟨-, rfl⟩ | ⟨next, hnext, rfl, -⟩
  · exact .refl _
  · apply Stream.SameOpen.skip
    rcases hnext with hop | hop <;> simp [hop]

/-- No step of the flattener loses sight of a loop left open. -/
theorem sameOpen_of_step (h : r.step target i rest = .ok (r', rest')) :
    Stream.SameOpen (i :: rest) rest' := by
  rcases step_cases h with ⟨hstart, -, rfl⟩ | ⟨parts, hstart, hparts, hloop⟩
  · exact .skip hstart
  have hwhole : Stream.SameOpen (i :: rest) parts.rest := .loop hstart hparts
  cases hloop with
  | dead => exact hwhole
  | kept => exact .enter hstart hparts
  | pattern => exact hwhole
  | clear _ _ finish => exact hwhole.trans (sameOpen_of_finishCell finish)
  | multiply _ _ finish => exact hwhole.trans (sameOpen_of_finishCell finish)

/-- A pass that succeeds leaves no loop open. -/
theorem openLoops_of_run {final : Flattener} {code : List Instruction}
    (h : run target r code = .ok final) (index : Nat) :
    Stream.openLoops index [] code = [] := by
  fun_induction run target r code generalizing index with
  | case1 => rfl
  | case2 => cases h
  | case3 r i rest r' rest' hstep _ ih =>
    obtain ⟨passed, -, hopen⟩ := sameOpen_of_step hstep
    rw [hopen]
    exact ih h _

/-- **A pass that fails names the leftmost loop that is left open.** -/
theorem isLeast_of_run {code : List Instruction} {label : Int} {position : Option Position}
    (h : run target r code = .error (.unmatchedLoop label position)) (index : Nat) :
    ∃ k start, IsLeast {k | k ∈ Stream.openLoops index [] code} (index + k) ∧
      code[k]? = some start ∧ start.opcode = .loopStart ∧ label = start.value ∧
      position = start.position := by
  fun_induction run target r code generalizing index with
  | case1 => cases h
  | case2 r i rest e hstep =>
    cases h
    rcases step_error_cases hstep with ⟨hstart, hnone, he⟩ | ⟨cause, he⟩
    · cases he
      exact ⟨0, i, Stream.isLeast_of_find? hstart hnone index, rfl, hstart, rfl, rfl⟩
    · cases he
  | case3 r i rest r' rest' hstep _ ih =>
    obtain ⟨passed, hcode, hopen⟩ := sameOpen_of_step hstep
    obtain ⟨k, start, hleast, hk, hstart⟩ := ih h (index + passed.length)
    refine ⟨passed.length + k, start, ?_, ?_, hstart⟩
    · rw [hopen, ← Nat.add_assoc]
      exact hleast
    · rw [hcode, List.getElem?_append_right (Nat.le_add_right _ _), Nat.add_sub_cancel_left]
      exact hk

end Flattener

/-! ## 3. Which streams are flattened -/

namespace Stream

theorem counts_le_of_part {code body : List Instruction} (h : body <:+: code) :
    counts body ≤ counts code := by
  obtain ⟨before, behind, rfl⟩ := h
  rw [counts_append, counts_append]
  omega

theorem flatten_eq_error_iff {target : Target} {code : List Instruction} {e : FlattenError} :
    flatten target code = .error e ↔ Flattener.run target {} code = .error e := by
  unfold flatten flattenWithStats
  cases Flattener.run target {} code <;> simp [bind, Except.bind, pure, Except.pure]

/-- **Flattening fails exactly on unclosed loops, and names the leftmost.**
If all values together stay below `2 ^ 63`, the pass fails for any target
exactly if a loop of the stream is never closed. The error then has label
and position of the first such loop. Nothing overflows and nothing is
refused: each part of the stream that is taken for a counting loop has its
products. -/
theorem flatten_fails_iff_unclosed {code : List Instruction} (target : Target)
    (h : weight code < 2 ^ 63) :
    ((∃ e, flatten target code = .error e) ↔ ∃ k, Unclosed code k) ∧
      (∀ e, flatten target code = .error e ↔
        ∃ k start, IsLeast {k | Unclosed code k} k ∧ code[k]? = some start ∧
          start.opcode = .loopStart ∧ e = .unmatchedLoop start.value start.position) ∧
      (∀ cause, flatten target code ≠ .error (.overflow cause)) ∧
      (∀ opcode position, flatten target code ≠ .error (.unexpectedOpcode opcode position)) ∧
      ∀ body drop, body <:+: code → isSimpleBody body = .ok true →
        counterDrop? 0 0 body = .ok (some drop) → ∃ terms, products 0 [] body = .ok terms := by
  have hcounts : counts code < 2 ^ 63 := Nat.lt_of_le_of_lt (counts_le_weight code) h
  have hnames : ∀ e, flatten target code = .error e →
      ∃ k start, IsLeast {k | Unclosed code k} k ∧ code[k]? = some start ∧
        start.opcode = .loopStart ∧ e = .unmatchedLoop start.value start.position := by
    intro e he
    have hrun := flatten_eq_error_iff.1 he
    obtain ⟨label, position, rfl⟩ := Flattener.unmatchedLoop_of_run hcounts hrun
    obtain ⟨k, start, hleast, hk, hstart, rfl, rfl⟩ := Flattener.isLeast_of_run hrun 0
    rw [Nat.zero_add] at hleast
    exact ⟨k, start, hleast, hk, hstart, rfl⟩
  have hfails : ∀ k, Unclosed code k → ∃ e, flatten target code = .error e := by
    intro k hk
    cases hrun : Flattener.run target {} code with
    | error e => exact ⟨e, flatten_eq_error_iff.2 hrun⟩
    | ok final =>
      rw [Unclosed, Flattener.openLoops_of_run hrun 0] at hk
      cases hk
  refine ⟨⟨?_, fun ⟨k, hk⟩ => hfails k hk⟩, fun e => ⟨hnames e, ?_⟩, ?_, ?_, ?_⟩
  · rintro ⟨e, he⟩
    obtain ⟨k, -, hleast, -⟩ := hnames e he
    exact ⟨k, hleast.1⟩
  · rintro ⟨k, start, hleast, hk, -, rfl⟩
    obtain ⟨e, he⟩ := hfails k hleast.1
    obtain ⟨k', start', hleast', hk', -, rfl⟩ := hnames e he
    obtain rfl := hleast.unique hleast'
    rw [hk] at hk'
    cases hk'
    exact he
  · intro cause he
    obtain ⟨_, _, -, -, -, hcause⟩ := hnames _ he
    cases hcause
  · intro opcode position he
    obtain ⟨_, _, -, -, -, hcause⟩ := hnames _ he
    cases hcause
  · intro body drop hbody hsimple hdrop
    exact exists_products (Verdict.isSimpleBody_eq_true_iff.1 hsimple) hdrop
      (Nat.lt_of_le_of_lt (counts_le_of_part hbody) hcounts) []

/-- A stray bracket, a counting loop, and two loops that stay open around a
third one: the first of the two is named. -/
theorem flatten_fails_iff_unclosed_nested :
    let body : List Instruction := [⟨.sub, 1, 0, none⟩, ⟨.right, 1, 0, none⟩,
      ⟨.add, 3, 0, none⟩, ⟨.left, 1, 0, none⟩]
    let code : List Instruction := [⟨.loopEnd, 9, 0, none⟩, ⟨.loopStart, 1, 0, none⟩] ++ body ++
      [⟨.loopEnd, 1, 0, none⟩, ⟨.loopStart, 2, 0, some ⟨1, 4⟩⟩, ⟨.loopStart, 3, 0, none⟩,
        ⟨.loopStart, 4, 0, none⟩, ⟨.add, 2, 0, none⟩, ⟨.loopEnd, 4, 0, none⟩]
    weight code < 2 ^ 63 ∧ flatten .c code = .error (.unmatchedLoop 2 (some ⟨1, 4⟩)) ∧
      ∃ terms, products 0 [] body = .ok terms := by
  intro body code
  have hfits : weight code < 2 ^ 63 := by decide
  have hopen : Unclosed code 7 := by decide
  have hleast : IsLeast {k | Unclosed code k} 7 := by
    refine ⟨hopen, fun k hk => ?_⟩
    have hmem : k ∈ [8, 7] := hk
    simp only [List.mem_cons, List.not_mem_nil, or_false] at hmem
    omega
  obtain ⟨-, hnames, -, -, hwalks⟩ := flatten_fails_iff_unclosed .c hfits
  exact ⟨hfits, (hnames _).2 ⟨7, _, hleast, rfl, rfl, rfl⟩,
    hwalks body 1 (List.infix_append ..) (by decide) (by decide)⟩

end Stream

end TapeCompiler
