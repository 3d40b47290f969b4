/-
TapeCompiler.Proofs.Merging — merging as rewriting of trees.

The pass goes over the flat stream and knows nothing of blocks. Still it
never merges across a bracket, because brackets are not counted, so what
it does can be told by four rules on trees: neighbours are joined, a
neighbour that undoes is taken off, a step is turned into its opposite, a
step by nothing is dropped. `Tree.Rewrites` is the closure of these rules,
and `Stream.rewrites_of_merge` and `Stream.rewrites_of_mergeAll` say that
the pass and its repetition stay within it.

What the rules keep is then proved of the rules: labels, the bound on the
counts, and in the module on soundness what the stream does.
-/
import TapeCompiler.Merge
import TapeCompiler.Proofs.Blocks
import Mathlib.Algebra.Ring.Nat

namespace TapeCompiler

/-! ## 1. The rules -/

namespace Opcode

/-- Only counted instructions undo each other. -/
theorem isCounted_of_opposite {op op' : Opcode} (h : op.opposite? = some op') :
    op'.isCounted = true := by
  cases op <;> simp [opposite?] at h <;> subst h <;> rfl

/-- A bracket is not counted, so no run goes across it. -/
theorem not_counted_of_opens {op : Opcode} (h : op.opensBlock = true) : op.isCounted = false := by
  cases op <;> simp_all [opensBlock, isCounted]

theorem not_counted_of_closes {op : Opcode} (h : op.closesBlock = true) :
    op.isCounted = false := by
  cases op <;> simp_all [closesBlock, isCounted]

end Opcode

theorem Instruction.plain_of_counted {i : Instruction} (h : i.opcode.isCounted = true) :
    i.Plain := by
  unfold Plain
  cases hop : i.opcode <;> simp_all [Opcode.isCounted, Opcode.opensBlock, Opcode.closesBlock]

theorem Instruction.plain_singleton {i : Instruction} (h : i.Plain) : ∀ j ∈ [i], j.Plain :=
  fun _ hj => List.mem_singleton.1 hj ▸ h

namespace Tree

/-- One tree comes from another by merging neighbours, anywhere and any
number of times. -/
inductive Rewrites : Tree → Tree → Prop where
  | refl (t : Tree) : Rewrites t t
  | trans {t₁ t₂ t₃ : Tree} (first : Rewrites t₁ t₂) (second : Rewrites t₂ t₃) : Rewrites t₁ t₃
  | step {i : Instruction} {plain : i.Plain} {rest rest' : Tree} (h : Rewrites rest rest') :
      Rewrites (step i plain rest) (step i plain rest')
  | block {start close : Instruction} {closes : close.Closes start} {body body' rest rest' : Tree}
      (hbody : Rewrites body body') (hrest : Rewrites rest rest') :
      Rewrites (block start body close closes rest) (block start body' close closes rest')
  | join {i j : Instruction} {plain : i.Plain} {plain' : j.Plain}
      {plain'' : ({ i with value := i.value + j.value } : Instruction).Plain}
      (counted : i.opcode.isCounted = true) (same : j.opcode = i.opcode) (rest : Tree) :
      Rewrites (step i plain (step j plain' rest))
        (step { i with value := i.value + j.value } plain'' rest)
  | cancel {i j : Instruction} {plain : i.Plain} {plain' : j.Plain}
      {plain'' : ({ i with value := i.value - j.value } : Instruction).Plain}
      (opposite : i.opcode.opposite? = some j.opcode) (rest : Tree) :
      Rewrites (step i plain (step j plain' rest))
        (step { i with value := i.value - j.value } plain'' rest)
  | turn {i : Instruction} {plain : i.Plain} {op : Opcode}
      {plain' : ({ i with opcode := op, value := -i.value } : Instruction).Plain}
      (opposite : i.opcode.opposite? = some op) (rest : Tree) :
      Rewrites (step i plain rest) (step { i with opcode := op, value := -i.value } plain' rest)
  | drop {i : Instruction} {plain : i.Plain} {op : Opcode}
      (opposite : i.opcode.opposite? = some op) (zero : i.value = 0) (rest : Tree) :
      Rewrites (step i plain rest) rest

namespace Rewrites

/-- Steps in front do not get in the way of a rule. -/
theorem prepend {steps : List Instruction} (h : ∀ i ∈ steps, i.Plain) {rest rest' : Tree}
    (hrest : Rewrites rest rest') : Rewrites (prepend steps h rest) (prepend steps h rest') := by
  induction steps with
  | nil => exact hrest
  | cons i steps ih => exact .step (ih _)

/-- No rule touches a bracket. -/
theorem labels_eq {t t' : Tree} (h : Rewrites t t') :
    Stream.labels t'.code = Stream.labels t.code := by
  induction h with
  | refl => rfl
  | trans _ _ ih ih' => exact ih'.trans ih
  | step _ ih => simp only [labels_step, ih]
  | block _ _ ihb ihr => simp only [labels_block, ihb, ihr]
  | join => simp only [labels_step]
  | cancel => simp only [labels_step]
  | turn => simp only [labels_step]
  | drop => simp only [labels_step]

end Rewrites

end Tree

/-! ## 2. Moderate streams -/

namespace Stream

/-- The absolute values of all operands together. -/
def weight (code : List Instruction) : Nat :=
  (code.map (fun i => i.value.natAbs)).sum

/-- No read or write has a count below zero, and the operands are so small
that no sum of them leaves the 64 bits. -/
structure Moderate (code : List Instruction) : Prop where
  channels : ∀ i ∈ code, i.opcode = .read ∨ i.opcode = .write → 0 ≤ i.value
  weight_lt : weight code < 2 ^ 63

instance decidableModerate (code : List Instruction) : Decidable (Moderate code) :=
  decidable_of_iff ((∀ i ∈ code, i.opcode = .read ∨ i.opcode = .write → 0 ≤ i.value) ∧
      weight code < 2 ^ 63)
    ⟨fun h => ⟨h.1, h.2⟩, fun h => ⟨h.channels, h.weight_lt⟩⟩

@[simp] theorem weight_cons (i : Instruction) (code : List Instruction) :
    weight (i :: code) = i.value.natAbs + weight code := by
  simp [weight]

@[simp] theorem weight_append (code code' : List Instruction) :
    weight (code ++ code') = weight code + weight code' := by
  simp [weight]

theorem natAbs_le_weight {i : Instruction} {code : List Instruction} (h : i ∈ code) :
    i.value.natAbs ≤ weight code := by
  induction code with
  | nil => cases h
  | cons j code ih =>
    rw [weight_cons]
    rcases List.mem_cons.1 h with rfl | h
    · exact Nat.le_add_right _ _
    · exact Nat.le_trans (ih h) (Nat.le_add_left _ _)

theorem Moderate.of_cons {i : Instruction} {code : List Instruction} (h : Moderate (i :: code)) :
    Moderate code := by
  have hweight := h.weight_lt
  rw [weight_cons] at hweight
  exact ⟨fun j hj => h.channels j (by simp [hj]), by omega⟩

/-- Parts of a moderate stream are moderate. -/
theorem Moderate.of_append {code code' : List Instruction} (h : Moderate (code ++ code')) :
    Moderate code ∧ Moderate code' := by
  have hweight := h.weight_lt
  rw [weight_append] at hweight
  exact ⟨⟨fun j hj => h.channels j (by simp [hj]), by omega⟩,
    ⟨fun j hj => h.channels j (by simp [hj]), by omega⟩⟩

end Stream

namespace Tree.Rewrites

/-- No rule makes the operands larger: a sum is at most its parts, and an
opposite is as large. -/
theorem weight_le {t t' : Tree} (h : Rewrites t t') :
    Stream.weight t'.code ≤ Stream.weight t.code := by
  induction h with
  | refl => exact Nat.le_refl _
  | trans _ _ ih ih' => exact Nat.le_trans ih' ih
  | step _ ih =>
    simp only [code_step, Stream.weight_cons]
    omega
  | block _ _ ihb ihr =>
    simp only [code_block, Stream.weight_cons, Stream.weight_append]
    omega
  | join =>
    simp only [code_step, Stream.weight_cons]
    omega
  | cancel =>
    simp only [code_step, Stream.weight_cons]
    omega
  | turn =>
    simp only [code_step, Stream.weight_cons]
    omega
  | drop =>
    simp only [code_step, Stream.weight_cons]
    omega

/-- No rule makes a count of reads or writes negative. They are only ever
added up, for they have no opposites. -/
theorem channels {t t' : Tree} (h : Rewrites t t')
    (ht : ∀ i ∈ t.code, i.opcode = .read ∨ i.opcode = .write → 0 ≤ i.value) :
    ∀ i ∈ t'.code, i.opcode = .read ∨ i.opcode = .write → 0 ≤ i.value := by
  induction h with
  | refl => exact ht
  | trans _ _ ih ih' => exact ih' (ih ht)
  | step _ ih =>
    simp only [code_step, List.forall_mem_cons] at ht ⊢
    exact ⟨ht.1, ih ht.2⟩
  | block _ _ ihb ihr =>
    simp only [code_block, List.forall_mem_cons, List.forall_mem_append] at ht ⊢
    exact ⟨ht.1, ihb ht.2.1, ht.2.2.1, ihr ht.2.2.2⟩
  | join _ same =>
    simp only [code_step, List.forall_mem_cons] at ht ⊢
    refine ⟨fun hop => ?_, ht.2.2⟩
    exact Int.add_nonneg (ht.1 hop) (ht.2.1 (same ▸ hop))
  | cancel opposite =>
    simp only [code_step, List.forall_mem_cons] at ht ⊢
    refine ⟨fun hop => ?_, ht.2.2⟩
    rcases hop with hop | hop <;> simp [hop, Opcode.opposite?] at opposite
  | @turn i _ _ _ opposite =>
    simp only [code_step, List.forall_mem_cons] at ht ⊢
    refine ⟨fun hop => ?_, ht.2⟩
    cases hi : i.opcode <;> simp [hi, Opcode.opposite?] at opposite <;> simp [← opposite] at hop
  | drop =>
    simp only [code_step, List.forall_mem_cons] at ht
    exact ht.2

/-- Merging makes no operand larger than those it comes from together. -/
theorem moderate {t t' : Tree} (h : Rewrites t t') (ht : Stream.Moderate t.code) :
    Stream.Moderate t'.code :=
  ⟨h.channels ht.channels, Nat.lt_of_le_of_lt h.weight_le ht.weight_lt⟩

end Tree.Rewrites

/-! ## 3. A run under way -/

/-- The instruction that a run would be without further ado. -/
def Run.step (r : Run) : Instruction := { r.first with value := r.count }

/-- The rules lead from a run to what it amounts to. -/
theorem Run.rewrites_of_total {r : Run} {i? : Option Instruction} (h : r.total = .ok i?)
    (plain : r.step.Plain) :
    ∃ hplain : ∀ i ∈ i?.toList, i.Plain,
      ∀ rest, (Tree.step r.step plain rest).Rewrites (Tree.prepend i?.toList hplain rest) := by
  unfold total at h
  split at h
  · cases h
    exact ⟨Instruction.plain_singleton plain, fun rest => .refl _⟩
  rename_i op hop
  split at h
  · cases h
    exact ⟨Instruction.plain_singleton plain, fun rest => .refl _⟩
  split at h
  · obtain ⟨count, hneg, h⟩ := bind_eq_ok_iff.1 h
    obtain ⟨-, rfl⟩ := Operand.checked_eq_ok_iff.1 hneg
    cases h
    have hplain : ({ r.step with opcode := op, value := -r.step.value } : Instruction).Plain :=
      Instruction.plain_of_counted (Opcode.isCounted_of_opposite hop)
    exact ⟨Instruction.plain_singleton hplain, fun rest => .turn (i := r.step) hop rest⟩
  · rename_i hpos hneg
    cases h
    have hzero : r.count = 0 := by omega
    exact ⟨by simp, fun rest => .drop (i := r.step) hop hzero rest⟩

namespace Merging

/-- The run under way, as code. -/
def pending (m : Merging) : List Instruction := (m.run.map Run.step).toList

/-- The run under way is one of counted instructions. -/
def Counted (m : Merging) : Prop := ∀ i ∈ m.pending, i.opcode.isCounted = true

theorem Counted.plain {m : Merging} (h : m.Counted) : ∀ i ∈ m.pending, i.Plain :=
  fun i hi => Instruction.plain_of_counted (h i hi)

theorem Counted.run {m : Merging} (h : m.Counted) {r : Run} (hr : m.run = some r) :
    r.first.opcode.isCounted = true :=
  h r.step (by simp [pending, hr])

/-- Ending a run writes what the rules make of it. -/
theorem rewrites_of_flush {m : Merging} {output : Array Instruction} (h : m.flush = .ok output)
    (hm : m.Counted) :
    ∃ steps, ∃ hplain : ∀ i ∈ steps, i.Plain, output.toList = m.output.toList ++ steps ∧
      ∀ rest, (Tree.prepend m.pending hm.plain rest).Rewrites
        (Tree.prepend steps hplain rest) := by
  obtain ⟨written, run⟩ := m
  cases run with
  | none =>
    cases h
    exact ⟨[], by simp, by simp, fun rest => .refl _⟩
  | some r =>
    obtain ⟨i?, htotal, h⟩ := bind_eq_ok_iff.1 h
    obtain ⟨hplain, hrewrites⟩ :=
      Run.rewrites_of_total htotal (hm.plain r.step (by simp [pending]))
    refine ⟨i?.toList, hplain, ?_, hrewrites⟩
    cases i? <;> cases h <;> simp

/-- What one more instruction can do to a pass under way. -/
theorem feed_cases {m m' : Merging} {i : Instruction} (h : m.feed i = .ok m') :
    (∃ output, m.flush = .ok output ∧ m' = start output i) ∨
      (∃ r, m.run = some r ∧ i.opcode = r.first.opcode ∧
        Operand.InRange (r.count + i.value) ∧
        m' = { m with run := some { r with count := r.count + i.value } }) ∨
      ∃ r output, m.run = some r ∧ r.first.opcode.opposite? = some i.opcode ∧
        flush { m with run := some { r with count := r.count - i.value } } = .ok output ∧
        m' = { output, run := none } := by
  obtain ⟨written, run⟩ := m
  cases run with
  | none =>
    cases h
    exact .inl ⟨written, rfl, rfl⟩
  | some r =>
    simp only [feed] at h
    split at h
    · rename_i hsame
      obtain ⟨count, hadd, h⟩ := bind_eq_ok_iff.1 h
      obtain ⟨hrange, rfl⟩ := Operand.checked_eq_ok_iff.1 hadd
      cases h
      exact .inr (.inl ⟨r, rfl, hsame, hrange, rfl⟩)
    split at h
    · rename_i hopposite
      obtain ⟨count, hsub, h⟩ := bind_eq_ok_iff.1 h
      obtain ⟨-, rfl⟩ := Operand.checked_eq_ok_iff.1 hsub
      obtain ⟨output, hflush, h⟩ := bind_eq_ok_iff.1 h
      cases h
      exact .inr (.inr ⟨r, output, rfl, hopposite, hflush, rfl⟩)
    · obtain ⟨output, hflush, h⟩ := bind_eq_ok_iff.1 h
      cases h
      exact .inl ⟨output, hflush, rfl⟩

/-- An instruction that is not counted ends the run, and is taken over. -/
theorem feed_of_not_counted {m m' : Merging} {i : Instruction} (hm : m.Counted)
    (hi : i.opcode.isCounted = false) (h : m.feed i = .ok m') :
    ∃ output, m.flush = .ok output ∧ m' = { output := output.push i, run := none } := by
  rcases feed_cases h with ⟨output, hflush, rfl⟩ | ⟨r, hr, hsame, -⟩ |
    ⟨r, output, hr, hopposite, -⟩
  · exact ⟨output, hflush, by simp [start, hi]⟩
  · simp [hsame, hm.run hr] at hi
  · simp [Opcode.isCounted_of_opposite hopposite] at hi

theorem Counted.of_run {output : Array Instruction} {r : Run}
    (h : r.first.opcode.isCounted = true) : Counted { output, run := some r } := by
  intro i hi
  obtain rfl := List.mem_singleton.1 hi
  exact h

theorem Counted.of_none (output : Array Instruction) : Counted { output, run := none } := by
  simp [Counted, pending]

/-- Only counted instructions start a run. -/
theorem Counted.feed {m m' : Merging} {i : Instruction} (hm : m.Counted)
    (h : m.feed i = .ok m') : m'.Counted := by
  rcases feed_cases h with ⟨output, -, rfl⟩ | ⟨r, hr, -, -, rfl⟩ | ⟨r, output, -, -, -, rfl⟩
  · unfold start
    split
    · rename_i hi
      exact .of_run hi
    · exact .of_none _
  · have hfirst := hm.run hr
    exact .of_run hfirst
  · exact .of_none _

theorem Counted.foldlM {code : List Instruction} {m m' : Merging} (hm : m.Counted)
    (h : code.foldlM Merging.feed m = .ok m') : m'.Counted := by
  induction code generalizing m with
  | nil =>
    cases h
    exact hm
  | cons i code ih =>
    obtain ⟨m₁, hfeed, h⟩ := bind_eq_ok_iff.1 h
    exact ih (hm.feed hfeed) h

/-- **The pass rewrites the tree that it goes over.** The run under way
counts as the first step of the tree; at a bracket it has always ended. -/
theorem rewrites_of_foldlM {t : Tree} {m m₁ : Merging} {output : Array Instruction}
    (hm : m.Counted) (h : t.code.foldlM feed m = .ok m₁) (hflush : m₁.flush = .ok output) :
    ∃ t', (Tree.prepend m.pending hm.plain t).Rewrites t' ∧
      output.toList = m.output.toList ++ t'.code := by
  induction t generalizing m m₁ output with
  | done =>
    cases h
    obtain ⟨steps, hplain, houtput, hrewrites⟩ := rewrites_of_flush hflush hm
    exact ⟨_, hrewrites .done, by simp [houtput]⟩
  | step i plain rest ih =>
    obtain ⟨m₂, hfeed, h⟩ := bind_eq_ok_iff.1 h
    have hm₂ := hm.feed hfeed
    obtain ⟨rest', hrest, houtput⟩ := ih hm₂ h hflush
    rcases feed_cases hfeed with ⟨output₂, hflush₂, rfl⟩ | ⟨r, hr, hsame, -, rfl⟩ |
      ⟨r, output₂, hr, hopposite, hflush₂, rfl⟩
    · obtain ⟨steps, hplain, houtput₂, hrewrites⟩ := rewrites_of_flush hflush₂ hm
      by_cases hi : i.opcode.isCounted = true
      · simp only [start, hi, if_true] at hrest houtput
        exact ⟨Tree.prepend steps hplain rest', (hrewrites _).trans (.prepend hplain hrest),
          by simp [houtput, houtput₂]⟩
      · simp only [start, hi] at hrest houtput
        exact ⟨Tree.prepend steps hplain (.step i plain rest'),
          (hrewrites _).trans (.prepend hplain (.step hrest)), by simp [houtput, houtput₂]⟩
    · obtain ⟨written, run⟩ := m
      cases hr
      exact ⟨rest', .trans (.join (i := r.step) (hm.run rfl) hsame rest) hrest, houtput⟩
    · obtain ⟨written, run⟩ := m
      cases hr
      have hcounted : r.first.opcode.isCounted = true := hm.run rfl
      obtain ⟨steps, hplain, houtput₂, hrewrites⟩ := rewrites_of_flush hflush₂ (.of_run hcounted)
      exact ⟨Tree.prepend steps hplain rest',
        .trans (.cancel (i := r.step) hopposite rest)
          (.trans (hrewrites rest) (.prepend hplain hrest)),
        by simp [houtput, houtput₂]⟩
  | block start body close closes rest ihb ihr =>
    rw [Tree.code_block] at h
    obtain ⟨m₂, hopen, h⟩ := bind_eq_ok_iff.1 h
    rw [List.foldlM_append] at h
    obtain ⟨m₃, hbody, h⟩ := bind_eq_ok_iff.1 h
    obtain ⟨m₄, hclose, h⟩ := bind_eq_ok_iff.1 h
    obtain ⟨output₂, hflush₂, rfl⟩ :=
      feed_of_not_counted hm (Opcode.not_counted_of_opens closes.opens) hopen
    obtain ⟨steps, hplain, houtput₂, hrewrites⟩ := rewrites_of_flush hflush₂ hm
    have hm₃ := (Counted.of_none _).foldlM hbody
    obtain ⟨output₃, hflush₃, rfl⟩ :=
      feed_of_not_counted hm₃ (Opcode.not_counted_of_closes closes.closes) hclose
    obtain ⟨body', hbody', houtput₃⟩ := ihb (.of_none _) hbody hflush₃
    obtain ⟨rest', hrest', houtput⟩ := ihr (.of_none _) h hflush
    exact ⟨Tree.prepend steps hplain (.block start body' close closes rest'),
      (hrewrites _).trans (.prepend hplain (.block hbody' hrest')),
      by simp [houtput, houtput₂, houtput₃]⟩

end Merging

/-! ## 4. Whole passes -/

namespace Stream

/-- **A pass stays within the rules.** -/
theorem rewrites_of_merge {t : Tree} {code : List Instruction} (h : merge t.code = .ok code) :
    ∃ t', t.Rewrites t' ∧ t'.code = code := by
  obtain ⟨m, hfold, h⟩ := bind_eq_ok_iff.1 h
  obtain ⟨output, hflush, h⟩ := bind_eq_ok_iff.1 h
  cases h
  obtain ⟨t', ht', houtput⟩ := Merging.rewrites_of_foldlM (.of_none _) hfold hflush
  exact ⟨t', ht', by simp [houtput]⟩

theorem rewrites_of_mergeOn {t : Tree} {passes : Nat} {code code' : List Instruction}
    (ht : t.code = code) (h : mergeOn passes code = .ok code') :
    ∃ t', t.Rewrites t' ∧ t'.code = code' := by
  fun_induction mergeOn passes code generalizing t with
  | case1 => cases h
  | case2 => cases h
  | case3 passes code next hmerge _ _ _ ih =>
    subst ht
    obtain ⟨t₁, ht₁, hcode₁⟩ := rewrites_of_merge hmerge
    obtain ⟨t', ht', hcode'⟩ := ih hcode₁ h
    exact ⟨t', ht₁.trans ht', hcode'⟩
  | case4 =>
    cases h
    exact ⟨t, .refl t, ht⟩

/-- So does its repetition, as often as it may be. -/
theorem rewrites_of_mergeAll {t : Tree} {code : List Instruction}
    (h : mergeAll t.code = .ok code) : ∃ t', t.Rewrites t' ∧ t'.code = code := by
  obtain ⟨next, hmerge, h⟩ := bind_eq_ok_iff.1 h
  obtain ⟨t₁, ht₁, hcode₁⟩ := rewrites_of_merge hmerge
  obtain ⟨t', ht', hcode'⟩ := rewrites_of_mergeOn hcode₁ h
  exact ⟨t', ht₁.trans ht', hcode'⟩

end Stream

/-! ## 5. A pass never makes a stream longer -/

namespace Merging

/-- How many instructions are written, the run under way being one. -/
def size (m : Merging) : Nat := m.output.size + m.pending.length

/-- A run that ends is one instruction, or none. -/
theorem size_of_flush {m : Merging} {output : Array Instruction} (h : m.flush = .ok output) :
    output.size ≤ m.size := by
  obtain ⟨written, run⟩ := m
  cases run with
  | none =>
    cases h
    exact Nat.le_refl _
  | some r =>
    obtain ⟨i?, -, h⟩ := bind_eq_ok_iff.1 h
    cases i? <;> cases h <;> simp [size, pending]

theorem size_start (output : Array Instruction) (i : Instruction) :
    (start output i).size = output.size + 1 := by
  unfold start
  split <;> simp [size, pending]

/-- One more instruction takes the room of one at most. -/
theorem size_feed {m m' : Merging} {i : Instruction} (h : m.feed i = .ok m') :
    m'.size ≤ m.size + 1 := by
  rcases feed_cases h with ⟨output, hflush, rfl⟩ | ⟨r, hr, -, -, rfl⟩ |
    ⟨r, output, hr, -, hflush, rfl⟩
  · rw [size_start]
    exact Nat.add_le_add_right (size_of_flush hflush) 1
  · simp [size, pending, hr]
  · have hsize := size_of_flush hflush
    simp only [size, pending, hr, Option.map_some, Option.toList_some, List.length_singleton,
      Option.map_none, Option.toList_none, List.length_nil] at hsize ⊢
    omega

/-- The run under way counts as an instruction of the stream. -/
theorem size_foldlM {code : List Instruction} {m m' : Merging} {output : Array Instruction}
    (h : code.foldlM feed m = .ok m') (hflush : m'.flush = .ok output) :
    output.size ≤ m.size + code.length := by
  induction code generalizing m with
  | nil =>
    cases h
    exact size_of_flush hflush
  | cons i code ih =>
    obtain ⟨m₁, hfeed, h⟩ := bind_eq_ok_iff.1 h
    have hsize := size_feed hfeed
    have hrest := ih h
    rw [List.length_cons]
    omega

end Merging

/-- **A pass never makes a stream longer.** -/
theorem Stream.length_le_of_merge {code code' : List Instruction} (h : merge code = .ok code') :
    code'.length ≤ code.length := by
  obtain ⟨m, hfold, h⟩ := bind_eq_ok_iff.1 h
  obtain ⟨output, hflush, h⟩ := bind_eq_ok_iff.1 h
  cases h
  simpa [Merging.size, Merging.pending] using Merging.size_foldlM hfold hflush

theorem Stream.length_le_of_mergeOn {passes : Nat} {code code' : List Instruction}
    (h : mergeOn passes code = .ok code') : code'.length ≤ code.length := by
  fun_induction mergeOn passes code with
  | case1 => cases h
  | case2 => cases h
  | case3 passes code next _ hshorter _ _ ih => exact Nat.le_trans (ih h) (Nat.le_of_lt hshorter)
  | case4 =>
    cases h
    exact Nat.le_refl _

theorem Stream.length_le_of_mergeAll {code code' : List Instruction}
    (h : mergeAll code = .ok code') : code'.length ≤ code.length := by
  obtain ⟨next, hmerge, h⟩ := bind_eq_ok_iff.1 h
  exact Nat.le_trans (length_le_of_mergeOn h) (length_le_of_merge hmerge)

/-! ## 6. Counts that fit can be merged

What a pass adds up are counts. Labels and other values are taken over as
they are, so they may be of any size. Merging to the end adds up one number
more, the tally of its passes. Each pass but the last takes an instruction
away, so the tally can only run over on a stream that is as long. -/

theorem Operand.inRange_of_natAbs_lt {x : Int} (h : x.natAbs < 2 ^ 63) : InRange x := by
  unfold InRange least greatest
  omega

theorem Operand.checked_of_natAbs_lt (operation : Overflow) {x : Int} (h : x.natAbs < 2 ^ 63) :
    checked operation x = .ok x :=
  checked_eq_ok_iff.2 ⟨inRange_of_natAbs_lt h, rfl⟩

/-- What the instruction counts, its sign apart. -/
def Instruction.tally (i : Instruction) : Nat :=
  if i.opcode.isCounted then i.value.natAbs else 0

theorem Instruction.tally_of_counted {i : Instruction} (h : i.opcode.isCounted = true) :
    i.tally = i.value.natAbs := by
  simp [tally, h]

theorem Instruction.tally_le (i : Instruction) : i.tally ≤ i.value.natAbs := by
  unfold tally
  split <;> omega

namespace Stream

/-- All counts of the stream together, their signs apart. -/
def counts (code : List Instruction) : Nat := (code.map Instruction.tally).sum

@[simp] theorem counts_nil : counts [] = 0 := rfl

@[simp] theorem counts_cons (i : Instruction) (code : List Instruction) :
    counts (i :: code) = i.tally + counts code := by
  simp [counts]

@[simp] theorem counts_append (code code' : List Instruction) :
    counts (code ++ code') = counts code + counts code' := by
  simp [counts]

/-- Counts are operands, so the bound on all operands is one on them. -/
theorem counts_le_weight (code : List Instruction) : counts code ≤ weight code := by
  induction code with
  | nil => exact Nat.le_refl _
  | cons i code ih =>
    have hi := i.tally_le
    rw [counts_cons, weight_cons]
    omega

end Stream

namespace Merging

/-- The counts of the finished part and of the run under way. -/
def counts (m : Merging) : Nat := Stream.counts m.output.toList + Stream.counts m.pending

theorem counts_of_run (output : Array Instruction) {r : Run}
    (h : r.first.opcode.isCounted = true) :
    counts { output, run := some r } = Stream.counts output.toList + r.count.natAbs := by
  simp [counts, pending, Run.step, Instruction.tally, h]

theorem counts_of_none (output : Array Instruction) :
    counts { output, run := none } = Stream.counts output.toList := by
  simp [counts, pending]

/-- Ending a run makes no count larger. -/
theorem exists_flush {m : Merging} (hm : m.Counted) (h : m.counts < 2 ^ 63) :
    ∃ output, m.flush = .ok output ∧ Stream.counts output.toList ≤ m.counts := by
  obtain ⟨written, run⟩ := m
  cases run with
  | none => exact ⟨written, rfl, by rw [counts_of_none]⟩
  | some r =>
    have hcounts := counts_of_run written (hm.run rfl)
    have hneg : Operand.neg r.count = .ok (-r.count) :=
      Operand.checked_of_natAbs_lt _ (by omega)
    have htotal : ∃ i?, r.total = .ok i? ∧ Stream.counts i?.toList ≤ r.count.natAbs := by
      unfold Run.total
      split
      · exact ⟨_, rfl, by simpa using Instruction.tally_le { r.first with value := r.count }⟩
      rename_i opposite _
      split
      · exact ⟨_, rfl, by simpa using Instruction.tally_le { r.first with value := r.count }⟩
      split
      · have hle := Instruction.tally_le { r.first with opcode := opposite, value := -r.count }
        exact ⟨_, bind_eq_ok_iff.2 ⟨_, hneg, rfl⟩, by simpa using hle⟩
      · exact ⟨_, rfl, by simp⟩
    obtain ⟨i?, htotal, hle⟩ := htotal
    cases i? with
    | none => exact ⟨written, bind_eq_ok_iff.2 ⟨_, htotal, rfl⟩, by rw [hcounts]; omega⟩
    | some i =>
      refine ⟨written.push i, bind_eq_ok_iff.2 ⟨_, htotal, rfl⟩, ?_⟩
      rw [hcounts, Array.toList_push, Stream.counts_append]
      exact Nat.add_le_add_left hle _

theorem counts_start (output : Array Instruction) (i : Instruction) :
    (start output i).counts = Stream.counts output.toList + i.tally := by
  unfold start
  split
  · rename_i hi
    rw [counts_of_run output hi, Instruction.tally_of_counted hi]
  · rw [counts_of_none, Array.toList_push, Stream.counts_append]
    simp

/-- One more instruction adds no more than what it counts. -/
theorem exists_feed {m : Merging} {i : Instruction} (hm : m.Counted)
    (h : m.counts + i.tally < 2 ^ 63) :
    ∃ m', m.feed i = .ok m' ∧ m'.counts ≤ m.counts + i.tally := by
  obtain ⟨written, run⟩ := m
  cases run with
  | none => exact ⟨_, rfl, by rw [counts_start, counts_of_none]⟩
  | some r =>
    have hfirst : r.first.opcode.isCounted = true := hm.run rfl
    have hcounts := counts_of_run written hfirst
    simp only [feed]
    split
    · rename_i hsame
      rw [Instruction.tally_of_counted (hsame ▸ hfirst)] at h ⊢
      have hadd : Operand.add r.count i.value = .ok (r.count + i.value) :=
        Operand.checked_of_natAbs_lt _ (by omega)
      have hmore := counts_of_run written (r := { r with count := r.count + i.value }) hfirst
      simp only at hmore
      exact ⟨_, bind_eq_ok_iff.2 ⟨_, hadd, rfl⟩, by rw [hcounts, hmore]; omega⟩
    split
    · rename_i hopposite
      rw [Instruction.tally_of_counted (Opcode.isCounted_of_opposite hopposite)] at h ⊢
      have hsub : Operand.sub r.count i.value = .ok (r.count - i.value) :=
        Operand.checked_of_natAbs_lt _ (by omega)
      have hless := counts_of_run written (r := { r with count := r.count - i.value }) hfirst
      simp only at hless
      obtain ⟨output, hflush, hle⟩ := exists_flush
        (m := { output := written, run := some { r with count := r.count - i.value } })
        (.of_run hfirst) (by omega)
      refine ⟨_, bind_eq_ok_iff.2 ⟨_, hsub, bind_eq_ok_iff.2 ⟨_, hflush, rfl⟩⟩, ?_⟩
      rw [counts_of_none]
      omega
    · obtain ⟨output, hflush, hle⟩ :=
        exists_flush (m := { output := written, run := some r }) hm (by omega)
      exact ⟨_, bind_eq_ok_iff.2 ⟨_, hflush, rfl⟩, by rw [counts_start]; omega⟩

/-- A pass over counts that fit runs to its end. -/
theorem exists_foldlM (code : List Instruction) {m : Merging} (hm : m.Counted)
    (h : m.counts + Stream.counts code < 2 ^ 63) :
    ∃ m', code.foldlM feed m = .ok m' ∧ m'.counts ≤ m.counts + Stream.counts code := by
  induction code generalizing m with
  | nil => exact ⟨m, rfl, by simp⟩
  | cons i code ih =>
    rw [Stream.counts_cons] at h ⊢
    obtain ⟨m₁, hfeed, hle⟩ := exists_feed (i := i) hm (by omega)
    obtain ⟨m', hfold, hle'⟩ := ih (hm.feed hfeed) (by omega)
    exact ⟨m', bind_eq_ok_iff.2 ⟨m₁, hfeed, hfold⟩, by omega⟩

end Merging

namespace Stream

variable {code : List Instruction}

/-- A pass over counts that fit succeeds, and together they get no larger. -/
theorem exists_merge_of_counts (h : counts code < 2 ^ 63) :
    ∃ code', merge code = .ok code' ∧ counts code' ≤ counts code := by
  have hempty : ({} : Merging).counts = 0 := rfl
  have hnone : ({} : Merging).Counted := .of_none _
  obtain ⟨m, hfold, hle⟩ := Merging.exists_foldlM code hnone (by omega)
  obtain ⟨output, hflush, hle'⟩ := Merging.exists_flush (hnone.foldlM hfold) (by omega)
  exact ⟨_, bind_eq_ok_iff.2 ⟨m, hfold, bind_eq_ok_iff.2 ⟨output, hflush, rfl⟩⟩, by omega⟩

/-- The passes still to come succeed, or run the tally over. Each of them took
an instruction away, so the stream was as long. -/
theorem mergeOn_of_counts (passes : Nat) (code : List Instruction) (h : counts code < 2 ^ 63) :
    (∃ code', mergeOn passes code = .ok code' ∧ counts code' ≤ counts code) ∨
      mergeOn passes code = .error .add ∧ Tally.greatest < passes + code.length := by
  fun_induction mergeOn passes code with
  | case1 passes code e hmerge =>
    obtain ⟨code', hcode', -⟩ := exists_merge_of_counts h
    simp [hmerge] at hcode'
  | case2 passes code next _ hshorter e htally =>
    obtain ⟨hfull, rfl⟩ := Tally.next_eq_error_iff.1 htally
    exact .inr ⟨rfl, by omega⟩
  | case3 passes code next hmerge hshorter passes' htally ih =>
    obtain ⟨-, rfl⟩ := Tally.next_eq_ok_iff.1 htally
    obtain ⟨code', hcode', hle⟩ := exists_merge_of_counts h
    obtain rfl : next = code' := by simpa [hmerge] using hcode'
    rcases ih (by omega) with ⟨last, hlast, hle'⟩ | ⟨herror, hlength⟩
    · exact .inl ⟨last, hlast, by omega⟩
    · exact .inr ⟨herror, by omega⟩
  | case4 passes code => exact .inl ⟨code, rfl, Nat.le_refl _⟩

/-- **How merging to the end ends.** It succeeds, and the counts together
get no larger, or it makes so many passes that their tally overflows. -/
theorem mergeAll_of_counts (h : counts code < 2 ^ 63) :
    (∃ code', mergeAll code = .ok code' ∧ counts code' ≤ counts code) ∨
      mergeAll code = .error .add ∧ Tally.greatest ≤ code.length := by
  obtain ⟨next, hmerge, hle⟩ := exists_merge_of_counts h
  have hlength := length_le_of_merge hmerge
  have hall : mergeAll code = mergeOn 1 next := by rw [mergeAll, hmerge]; rfl
  rcases mergeOn_of_counts 1 next (by omega) with ⟨last, hlast, hle'⟩ | ⟨herror, hlong⟩
  · exact .inl ⟨last, hall.trans hlast, by omega⟩
  · exact .inr ⟨hall.trans herror, by omega⟩

/-- Merging to the end makes the counts no larger. -/
theorem counts_le_of_mergeAll {code' : List Instruction} (h : counts code < 2 ^ 63)
    (hall : mergeAll code = .ok code') : counts code' ≤ counts code := by
  rcases mergeAll_of_counts h with ⟨last, hlast, hle⟩ | ⟨herror, -⟩
  · obtain rfl := Except.ok.inj (hlast.symm.trans hall)
    exact hle
  · cases herror.symm.trans hall

/-- A stream that is too short for so many passes can be merged to the end. -/
theorem exists_mergeAll_of_length (h : counts code < 2 ^ 63)
    (hlength : code.length < Tally.greatest) : ∃ code', mergeAll code = .ok code' := by
  rcases mergeAll_of_counts h with ⟨last, hlast, -⟩ | ⟨-, hlong⟩
  · exact ⟨last, hlast⟩
  · omega

/-- Operands that fit together can be merged. -/
theorem exists_merge (h : weight code < 2 ^ 63) : ∃ code', merge code = .ok code' := by
  obtain ⟨code', hmerge, -⟩ :=
    exists_merge_of_counts (Nat.lt_of_le_of_lt (counts_le_weight code) h)
  exact ⟨code', hmerge⟩

end Stream

end TapeCompiler
