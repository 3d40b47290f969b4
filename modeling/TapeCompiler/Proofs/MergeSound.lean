/-
TapeCompiler.Proofs.MergeSound — merging keeps what a stream does.

Each rule of `Tree.Rewrites` leads to a similar tree. Amounts add up modulo
the cell width and modulo 64 bits, whatever their signs, and counts of
reads and writes add up as long as none is below zero. A rule may take an
access to a cell away, so where the old stream runs off the tape the new
one may go on; this is why nothing is said in that case.

The main statement `Stream.merge_keeps_behaviour` is about whole runs: a
run of the old stream leaves the tape, or both runs complete alike and the
new one takes no more steps, or neither comes to an end.
-/
import TapeCompiler.Proofs.CellSteps
import TapeCompiler.Proofs.Similarity
import TapeCompiler.Proofs.Merging
import TapeCompiler.Proofs.ControlFlow

namespace TapeCompiler

/-! ## 1. Shorter straight-line code -/

namespace Tree.Similar

variable {w : Width} {i j k : Instruction} {hi : i.Plain} {hj : j.Plain} {hk : k.Plain}

/-- One instruction in place of two. -/
theorem fuse (rest : Tree)
    (h : ∀ s s₁ s₂ : Store, s.Regular w → i.effect w s = .ok s₁ → j.effect w s₁ = .ok s₂ →
      ∃ s₂', k.effect w s = .ok s₂' ∧ s₂.Alike s₂') :
    Similar w (.step i hi (.step j hj rest)) (.step k hk rest) := by
  intro rounds s s' hs ha
  cases he : i.effect w s with
  | error c =>
    rw [eval_step_error he]
    trivial
  | ok s₁ =>
    rw [eval_step_ok he]
    cases he₁ : j.effect w s₁ with
    | error c =>
      rw [eval_step_error he₁]
      trivial
    | ok s₂ =>
      obtain ⟨s₂', hk', ha₂⟩ := h s s₁ s₂ hs he he₁
      obtain ⟨s₃, hk₃, ha₃⟩ := Instruction.effect_alike rfl rfl rfl ha hk'
      have hs₂ : s₂.Regular w := (hs.effect he).effect he₁
      rw [eval_step_ok he₁, delay_delay, eval_step_ok hk₃]
      exact (refl w rest rounds s₂ s₃ hs₂ (ha₂.trans ha₃)).delay (by omega)

/-- One instruction in place of another. -/
theorem replace (rest : Tree)
    (h : ∀ s s₁ : Store, s.Regular w → i.effect w s = .ok s₁ → k.effect w s = .ok s₁) :
    Similar w (.step i hi rest) (.step k hk rest) := by
  intro rounds s s' hs ha
  cases he : i.effect w s with
  | error c =>
    rw [eval_step_error he]
    trivial
  | ok s₁ =>
    obtain ⟨s₂, hk₂, ha₂⟩ := Instruction.effect_alike rfl rfl rfl ha (h s s₁ hs he)
    rw [eval_step_ok he, eval_step_ok hk₂]
    exact (refl w rest rounds s₁ s₂ (hs.effect he) ha₂).delay (Nat.le_refl 1)

/-- Nothing in place of an instruction. -/
theorem remove (rest : Tree)
    (h : ∀ s s₁ : Store, s.Regular w → i.effect w s = .ok s₁ → s₁ = s) :
    Similar w (.step i hi rest) rest := by
  intro rounds s s' hs ha
  cases he : i.effect w s with
  | error c =>
    rw [eval_step_error he]
    trivial
  | ok s₁ =>
    obtain rfl := h s s₁ hs he
    rw [eval_step_ok he]
    have hagree := (refl w rest rounds s₁ s' hs ha).delay (Nat.zero_le 1)
    rwa [delay_zero] at hagree

end Tree.Similar

/-! ## 2. The rules are sound -/

namespace Instruction

variable {w : Width} {s s₁ s₂ : Store} {i j : Instruction}

/-- The effects of two writes are those of one. -/
theorem effect_write_add (hi : i.opcode = .write) (hj : j.opcode = .write) (hvalue : 0 ≤ i.value)
    (hvalue' : 0 ≤ j.value) (he : i.effect w s = .ok s₁) (he' : j.effect w s₁ = .ok s₂) :
    ∃ s₂', effect { i with value := i.value + j.value } w s = .ok s₂' ∧ s₂.Alike s₂' := by
  simp only [effect, hi, hj] at he he' ⊢
  obtain ⟨s₃, hw, hf⟩ := bind_eq_ok_iff.1 he
  obtain ⟨-, rfl⟩ := Store.flush_eq_ok_iff.1 hf
  obtain ⟨s₄, hw', hf'⟩ := bind_eq_ok_iff.1 he'
  obtain ⟨s₄', hw'', ha⟩ := Store.writeTimes_alike i.position (.refl s₃) hw'
  obtain ⟨s₂', hf'', ha'⟩ := ha.flush_eq_ok hf'
  refine ⟨s₂', bind_eq_ok_iff.2 ⟨s₄', ?_, hf''⟩, ha'⟩
  rw [Int.toNat_add hvalue hvalue', Store.writeTimes_add hw, hw'']

/-- The effects of two reads are those of one. -/
theorem effect_read_add (hi : i.opcode = .read) (hj : j.opcode = .read) (hvalue : 0 ≤ i.value)
    (hvalue' : 0 ≤ j.value) (he : i.effect w s = .ok s₁) (he' : j.effect w s₁ = .ok s₂) :
    ∃ s₂', effect { i with value := i.value + j.value } w s = .ok s₂' ∧ s₂.Alike s₂' := by
  simp only [effect, hi, hj] at he he' ⊢
  obtain ⟨s₂', hr', ha⟩ := Store.readTimes_alike i.position (.refl s₁) he'
  refine ⟨s₂', ?_, ha⟩
  rw [Int.toNat_add hvalue hvalue', Store.readTimes_add he, hr']

/-- What is counted and is no read or write is a step. -/
theorem alongside_self_of_counted {i : Instruction} (h : i.opcode.isCounted = true)
    (hwrite : i.opcode ≠ .write) (hread : i.opcode ≠ .read) : i.Alongside i := by
  cases hi : i.opcode <;> simp_all [Opcode.isCounted, Alongside, IsCellStep, IsMove]

theorem inRange_amount {i : Instruction} (h : i.value.natAbs < 2 ^ 63) :
    Operand.InRange i.amount := by
  have habs : i.amount.natAbs < 2 ^ 63 := by
    unfold amount
    split <;> omega
  exact Operand.inRange_of_natAbs_lt habs

end Instruction

/-- **Every rule leads to a similar tree**, as long as the counts are moderate. -/
theorem Tree.Rewrites.similar {w : Width} {t t' : Tree} (h : t.Rewrites t')
    (hm : Stream.Moderate t.code) : Similar w t t' := by
  induction h with
  | refl t => exact .refl w t
  | trans first _ ih ih' => exact (ih hm).trans (ih' (first.moderate hm))
  | step _ ih => exact .step (ih hm.of_cons)
  | block _ _ ihb ihr =>
    obtain ⟨hbody, hrest⟩ := hm.of_cons.of_append
    exact .block (ihb hbody) (ihr hrest.of_cons)
  | @join i j _ _ _ counted same rest =>
    have hweight := hm.weight_lt
    simp only [code_step, Stream.weight_cons] at hweight
    have hvalue := hm.channels i (by simp)
    have hvalue' := hm.channels j (by simp)
    rw [same] at hvalue'
    refine .fuse rest fun s s₁ s₂ hs he he' => ?_
    by_cases hwrite : i.opcode = .write
    · exact Instruction.effect_write_add hwrite (same.trans hwrite) (hvalue (.inr hwrite))
        (hvalue' (.inr hwrite)) he he'
    by_cases hread : i.opcode = .read
    · exact Instruction.effect_read_add hread (same.trans hread) (hvalue (.inl hread))
        (hvalue' (.inl hread)) he he'
    · have hkind : i.Alongside i := Instruction.alongside_self_of_counted counted hwrite hread
      have hkind' : i.Alongside j := hkind.congr_right same
      refine ⟨s₂, ?_, .refl s₂⟩
      refine Instruction.effect_of_amount_add hkind' (hkind.congr_right rfl) ?_ ?_ he he'
      · exact Instruction.amount_join same
      · exact Instruction.inRange_amount (by simp only; omega)
  | @cancel i j _ _ _ opposite rest =>
    have hweight := hm.weight_lt
    simp only [code_step, Stream.weight_cons] at hweight
    refine .fuse rest fun s s₁ s₂ hs he he' => ⟨s₂, ?_, .refl s₂⟩
    have hkind := Instruction.alongside_of_opposite opposite
    refine Instruction.effect_of_amount_add hkind (hkind.self.congr_right rfl) ?_ ?_ he he'
    · exact Instruction.amount_cancel opposite
    · exact Instruction.inRange_amount (by simp only; omega)
  | @turn i _ op _ opposite rest =>
    have hweight := hm.weight_lt
    simp only [code_step, Stream.weight_cons] at hweight
    refine .replace rest fun s s₁ hs he => ?_
    refine Instruction.effect_of_amount_eq (Instruction.alongside_of_opposite opposite) ?_ ?_ he
    · exact Instruction.amount_turn opposite
    · exact Instruction.inRange_amount (by simp only; omega)
  | @drop i _ op opposite zero rest =>
    refine .remove rest fun s s₁ hs he => ?_
    have hamount : i.amount = 0 := by
      unfold Instruction.amount
      split <;> simp [zero]
    have hkind := Instruction.alongside_of_opposite (j := { i with opcode := op }) opposite
    exact Instruction.eq_of_effect_of_amount_zero hkind.self hamount hs he

/-! ## 3. Whole runs -/

/-- On a regular store a moderate tree can only fail by leaving the tape. -/
theorem Tree.outOfBounds_of_eval {w : Width} {rounds n : Nat} {t : Tree} {s : Store} {c : Crash}
    (hm : Stream.Moderate t.code) (hs : s.Regular w)
    (h : t.eval w rounds s = some (n, .error c)) :
    ∃ index position, c.failure = .outOfBounds index position := by
  rcases failure_of_eval h with (hbounds | ⟨-, hsink⟩) | ⟨-, i, hi, -, hrange⟩
  · exact hbounds
  · exact absurd hs.sink hsink
  · have hweight := hm.weight_lt
    have hvalue := Stream.natAbs_le_weight hi
    exact absurd (Operand.inRange_of_natAbs_lt (by omega)) hrange

namespace Machine

/-- The run of the first stream leaves the tape, or both runs complete alike
and the second one takes no more steps, or neither comes to an end. -/
def Keeps (m : Machine) (w : Width) (code code' : List Instruction) : Prop :=
  (∃ index position sink, m.Fails code w ⟨.outOfBounds index position, sink⟩) ∨
    (∃ m₁ m₂, m.Completes code w m₁ ∧ m.Completes code' w m₂ ∧
      m₁.toStore.Alike m₂.toStore ∧ m₂.steps ≤ m₁.steps) ∨
    m.RunsForever code w ∧ m.RunsForever code' w

variable {m : Machine} {w : Width} {t t' : Tree}

theorem keeps_of_similar (hlabels : (Stream.labels t.code).Nodup)
    (hlabels' : (Stream.labels t'.code).Nodup) (hm : Stream.Moderate t.code)
    (hsimilar : Tree.Similar w t t') (hs : m.toStore.Regular w) : m.Keeps w t.code t'.code := by
  have hagree (rounds : Nat) := hsimilar rounds m.toStore m.toStore hs (.refl _)
  by_cases hever : ∀ rounds, t.eval w rounds m.toStore = none
  · refine .inr (.inr ⟨(runsForever_iff_eval hlabels).2 hever,
      (runsForever_iff_eval hlabels').2 fun rounds => ?_⟩)
    have hnone := hagree rounds
    rwa [hever rounds] at hnone
  · obtain ⟨rounds, hsome⟩ := not_forall.1 hever
    obtain ⟨⟨n, r⟩, hx⟩ := Option.ne_none_iff_exists'.1 hsome
    cases r with
    | error c =>
      obtain ⟨index, position, hfailure⟩ := Tree.outOfBounds_of_eval hm hs hx
      refine .inl ⟨index, position, c.sink, (fails_iff_eval hlabels).2 ⟨rounds, n, ?_⟩⟩
      rw [hx, ← hfailure]
    | ok s₁ =>
      have hok := hagree rounds
      rw [hx] at hok
      obtain ⟨n', hle, s₂, hx', ha⟩ := hok
      exact .inr (.inl ⟨_, _, (completes_iff_eval hlabels).2 ⟨rounds, n, s₁, hx, rfl⟩,
        (completes_iff_eval hlabels').2 ⟨rounds, n', s₂, hx', rfl⟩, ha,
        Nat.add_le_add_left hle _⟩)

/-- A run that takes no more steps than one that stays within the counter
stays within it too. -/
theorem executeWithin_of_completes {m₁ : Machine} (hlabels : (Stream.labels t.code).Nodup)
    (h : m.Completes t.code w m₁) {headroom : Nat} (hsteps : m₁.steps ≤ m.steps + headroom) :
    m.executeWithin headroom t.code w none = .ok (.completed, m₁) := by
  obtain ⟨rounds, n, s, hx, rfl⟩ := (completes_iff_eval hlabels).1 h
  have hrun := executeWithin_eq_eval hlabels m w headroom rounds
  rw [hx] at hrun
  exact hrun.2 (by simp only at hsteps; omega)

theorem steps_le_of_executeWithin {m₁ : Machine} (hlabels : (Stream.labels t.code).Nodup)
    {headroom : Nat} (h : m.executeWithin headroom t.code w none = .ok (.completed, m₁)) :
    m₁.steps ≤ m.steps + headroom := by
  obtain ⟨rounds, n, s, hx, rfl⟩ := (completes_iff_eval hlabels).1 ⟨headroom, h⟩
  have hrun := executeWithin_eq_eval hlabels m w headroom rounds
  rw [hx, h] at hrun
  have hle : n ≤ headroom := Nat.le_of_not_lt fun hlt => not_counterOverflow_ok _ (hrun.1 hlt)
  exact Nat.add_le_add_left hle _

/-- Where 64 bits suffice for the steps of the first stream, they suffice
for those of the second one. -/
theorem Keeps.execute (hlabels : (Stream.labels t.code).Nodup)
    (hlabels' : (Stream.labels t'.code).Nodup) (h : m.Keeps w t.code t'.code)
    (hroom : ¬ CounterOverflow (m.execute t.code w none)) :
    (∃ index position sink, m.execute t.code w none = .error ⟨.outOfBounds index position, sink⟩) ∨
      ∃ m₁ m₂, m.execute t.code w none = .ok (.completed, m₁) ∧
        m.execute t'.code w none = .ok (.completed, m₂) ∧
        m₁.toStore.Alike m₂.toStore ∧ m₂.steps ≤ m₁.steps := by
  rcases h with ⟨index, position, sink, hfails⟩ | ⟨m₁, m₂, h₁, h₂, ha, hle⟩ | ⟨hforever, -⟩
  · exact .inl ⟨index, position, sink, (fails_iff_execute hroom).1 hfails⟩
  · have hrun := (completes_iff_execute hroom).1 h₁
    have hsteps := steps_le_of_executeWithin hlabels hrun
    exact .inr ⟨m₁, m₂, hrun,
      executeWithin_of_completes hlabels' h₂ (Nat.le_trans hle hsteps), ha, hle⟩
  · exact absurd (hforever _) hroom

end Machine

namespace Stream

/-- **Merging keeps what a stream does.** A well-formed stream with moderate
counts can be merged once, and to the end unless the tally of the passes
overflows. Take what comes of either. From every machine with a regular
store a run of the old stream leaves the tape, or both runs complete with
the same tape, pointer, input and output and the new one takes no more
steps, or neither comes to an end. The first two cases are all there is
where the old run stays within the 64-bit step counter, and then the new
run does so as well. -/
theorem merge_keeps_behaviour {code : List Instruction} (hwf : WellFormed code)
    (hm : Moderate code) :
    (∃ once, merge code = .ok once) ∧
      ((∃ all, mergeAll code = .ok all) ∨
        mergeAll code = .error .add ∧ Tally.greatest ≤ code.length) ∧
      ∀ code', merge code = .ok code' ∨ mergeAll code = .ok code' →
        ∀ (w : Width) (m : Machine), m.toStore.Regular w →
          m.Keeps w code code' ∧
          (¬ CounterOverflow (m.execute code w none) →
            (∃ index position sink,
              m.execute code w none = .error ⟨.outOfBounds index position, sink⟩) ∨
            ∃ m₁ m₂, m.execute code w none = .ok (.completed, m₁) ∧
              m.execute code' w none = .ok (.completed, m₂) ∧
              m₁.toStore.Alike m₂.toStore ∧ m₂.steps ≤ m₁.steps) := by
  obtain ⟨t, rfl⟩ := hwf.exists_tree
  refine ⟨exists_merge hm.weight_lt, ?_, fun code' hcode' w m hs => ?_⟩
  · refine (mergeAll_of_counts ?_).imp_left fun ⟨all, hall, _⟩ => ⟨all, hall⟩
    exact Nat.lt_of_le_of_lt (counts_le_weight _) hm.weight_lt
  obtain ⟨t', hrewrites, rfl⟩ : ∃ t', t.Rewrites t' ∧ t'.code = code' :=
    hcode'.elim rewrites_of_merge rewrites_of_mergeAll
  have hlabels' : (labels t'.code).Nodup := hrewrites.labels_eq ▸ hwf.labels_nodup
  have hkeeps := Machine.keeps_of_similar hwf.labels_nodup hlabels' hm (hrewrites.similar hm) hs
  exact ⟨hkeeps, hkeeps.execute hwf.labels_nodup hlabels'⟩

/-- A loop whose cell steps and moves cancel in part, and two writes behind it. -/
theorem merge_keeps_behaviour_loop :
    let code : List Instruction := [⟨.loopStart, 1, 0, none⟩, ⟨.sub, 3, 0, none⟩,
      ⟨.add, 2, 0, none⟩, ⟨.right, 1, 0, none⟩, ⟨.left, 1, 0, none⟩, ⟨.loopEnd, 1, 0, none⟩,
      ⟨.write, 1, 0, none⟩, ⟨.write, 2, 0, none⟩]
    let m : Machine := { tape := #[200, 7] }
    WellFormed code ∧ Moderate code ∧ m.toStore.Regular .bits8 ∧
      ∃ once all, merge code = .ok once ∧ mergeAll code = .ok all ∧
        m.Keeps .bits8 code once ∧ m.Keeps .bits8 code all := by
  intro code m
  have hwf : WellFormed code := by decide
  have hm : Moderate code := by decide
  have hs : m.toStore.Regular .bits8 :=
    ⟨by simp [m, Width.mask, Width.modulus], by decide, ⟨rfl, rfl⟩⟩
  obtain ⟨⟨once, honce⟩, ⟨all, hall⟩ | ⟨-, hlong⟩, hkeeps⟩ := merge_keeps_behaviour hwf hm
  · exact ⟨hwf, hm, hs, once, all, honce, hall, (hkeeps once (.inl honce) .bits8 m hs).1,
      (hkeeps all (.inr hall) .bits8 m hs).1⟩
  · exact absurd hlong (by decide)

end Stream

end TapeCompiler
