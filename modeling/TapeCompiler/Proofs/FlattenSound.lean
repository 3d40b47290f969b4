/-
TapeCompiler.Proofs.FlattenSound — flattening keeps what a stream does.

The pass follows rules that lead to refinements, as long as it does not
divide. With the machine's structured meaning this says what becomes of
whole runs: where the old stream completes, the new one completes with the
same store, remarks included, and where the old stream leaves the tape, the
new one does so at the same cell after the same output.

The new stream may take more steps than the old one: a counting loop on a
zero cell is two instructions, and its replacement three. So the step
counter has to have room for both.
-/
import TapeCompiler.Proofs.FlattenPass
import TapeCompiler.Proofs.ControlFlow

namespace TapeCompiler

namespace Machine

variable {t t' : Tree} {w : Width} {m : Machine}

/-- A refinement completes with the same store. -/
theorem completes_of_refines (hlabels : (Stream.labels t.code).Nodup)
    (hlabels' : (Stream.labels t'.code).Nodup) (hrefines : Tree.Refines w false t t')
    (hs : m.toStore.Regular w) {m₁ : Machine} (h : m.Completes t.code w m₁) :
    ∃ m₂, m.Completes t'.code w m₂ ∧ m₂.toStore = m₁.toStore := by
  have hexec := (completes_iff_exec hlabels).1 ⟨m₁, h, rfl⟩
  exact (completes_iff_exec hlabels').2 (hrefines.exec hs hexec)

/-- A refinement leaves the tape at the same cell, after the same output. -/
theorem fails_of_refines (hlabels : (Stream.labels t.code).Nodup)
    (hlabels' : (Stream.labels t'.code).Nodup) (hrefines : Tree.Refines w false t t')
    (hs : m.toStore.Regular w) {index : Int} {position : Option Position} {sink : Sink}
    (h : m.Fails t.code w ⟨.outOfBounds index position, sink⟩) :
    ∃ position', m.Fails t'.code w ⟨.outOfBounds index position', sink⟩ := by
  have hexec := (fails_iff_exec hlabels).1 ⟨position, h⟩
  exact (fails_iff_exec hlabels').2 (hrefines.exec hs hexec)

end Machine

namespace Stream

/-- **Flattening without divisions keeps what a stream does.** From every
machine with a regular store, where the old stream completes the new one
completes with the same tape, pointer, output, input and remarks, and where
the old stream leaves the tape the new one leaves it at the same cell after
the same output. Both hold of a step counter that has room enough, and of
the 64-bit counter where neither run overflows it. -/
theorem flatten_keeps_behaviour {target : Target} {code code' : List Instruction}
    {stats : LoopStats} (hwf : WellFormed code)
    (h : flattenWithStats target code = .ok (code', stats)) (hdivisions : stats.divisions = 0)
    (w : Width) (m : Machine) (hs : m.toStore.Regular w) :
    ((∀ m₁, m.Completes code w m₁ → ∃ m₂, m.Completes code' w m₂ ∧ m₂.toStore = m₁.toStore) ∧
      ∀ index position sink, m.Fails code w ⟨.outOfBounds index position, sink⟩ →
        ∃ position', m.Fails code' w ⟨.outOfBounds index position', sink⟩) ∧
    (¬ CounterOverflow (m.execute code w none) → ¬ CounterOverflow (m.execute code' w none) →
      (∀ m₁, m.execute code w none = .ok (.completed, m₁) →
        ∃ m₂, m.execute code' w none = .ok (.completed, m₂) ∧ m₂.toStore = m₁.toStore) ∧
      ∀ index position sink, m.execute code w none = .error ⟨.outOfBounds index position, sink⟩ →
        ∃ position', m.execute code' w none = .error ⟨.outOfBounds index position', sink⟩) := by
  obtain ⟨t, rfl⟩ := hwf.exists_tree
  obtain ⟨t', hflat, rfl⟩ := flattens_of_flattenWithStats h
  have hnever : (0 < stats.divisions) = False := by simp [hdivisions]
  rw [hnever] at hflat
  have hlabels' : (labels t'.code).Nodup := hwf.labels_nodup.sublist hflat.labels_sublist
  have hcompletes {m₁ : Machine} (hm : m.Completes t.code w m₁) :=
    Machine.completes_of_refines hwf.labels_nodup hlabels' (hflat.refines w) hs hm
  have hfails {index : Int} {position : Option Position} {sink : Sink}
      (hm : m.Fails t.code w ⟨.outOfBounds index position, sink⟩) :=
    Machine.fails_of_refines hwf.labels_nodup hlabels' (hflat.refines w) hs hm
  refine ⟨⟨fun m₁ hm => hcompletes hm, fun index position sink hm => hfails hm⟩,
    fun hroom hroom' => ⟨fun m₁ hm => ?_, fun index position sink hm => ?_⟩⟩
  · simpa only [Machine.completes_iff_execute hroom'] using
      hcompletes ((Machine.completes_iff_execute hroom).2 hm)
  · simpa only [Machine.fails_iff_execute hroom'] using
      hfails ((Machine.fails_iff_execute hroom).2 hm)

/-- A store that is taken back, a clear that becomes a store, and a counting
loop that runs off the tape to the left if its cell is the first one. -/
theorem flatten_keeps_behaviour_counting :
    ∃ code code' : List Instruction, ∃ stats : LoopStats,
      code = [⟨.add, 9, 0, none⟩, ⟨.loopStart, 5, 0, none⟩, ⟨.sub, 1, 0, none⟩,
        ⟨.loopEnd, 5, 0, none⟩, ⟨.add, 3, 0, none⟩, ⟨.loopStart, 7, 0, none⟩, ⟨.left, 1, 0, none⟩,
        ⟨.add, 2, 0, none⟩, ⟨.right, 1, 0, none⟩, ⟨.sub, 1, 0, none⟩, ⟨.loopEnd, 7, 0, none⟩] ∧
      code' = [⟨.store, 3, 0, none⟩, ⟨.guard, 7, 0, none⟩, ⟨.mul, 2, -1, none⟩,
        ⟨.label, 7, 0, none⟩, ⟨.mul, -1, 0, none⟩] ∧
      WellFormed code ∧ flattenWithStats .c code = .ok (code', stats) ∧ stats.divisions = 0 ∧
      Store.Regular .bits8 { tape := #[1, 2], pointer := 1 } ∧
      ∀ m₁, ({ tape := #[1, 2], pointer := 1 } : Machine).Completes code .bits8 m₁ →
        ∃ m₂, ({ tape := #[1, 2], pointer := 1 } : Machine).Completes code' .bits8 m₂ ∧
          m₂.toStore = m₁.toStore := by
  have hwf : WellFormed [⟨.add, 9, 0, none⟩, ⟨.loopStart, 5, 0, none⟩, ⟨.sub, 1, 0, none⟩,
      ⟨.loopEnd, 5, 0, none⟩, ⟨.add, 3, 0, none⟩, ⟨.loopStart, 7, 0, none⟩, ⟨.left, 1, 0, none⟩,
      ⟨.add, 2, 0, none⟩, ⟨.right, 1, 0, none⟩, ⟨.sub, 1, 0, none⟩, ⟨.loopEnd, 7, 0, none⟩] := by
    decide
  have hflat : flattenWithStats .c [⟨.add, 9, 0, none⟩, ⟨.loopStart, 5, 0, none⟩,
      ⟨.sub, 1, 0, none⟩, ⟨.loopEnd, 5, 0, none⟩, ⟨.add, 3, 0, none⟩, ⟨.loopStart, 7, 0, none⟩,
      ⟨.left, 1, 0, none⟩, ⟨.add, 2, 0, none⟩, ⟨.right, 1, 0, none⟩, ⟨.sub, 1, 0, none⟩,
      ⟨.loopEnd, 7, 0, none⟩] =
      .ok ([⟨.store, 3, 0, none⟩, ⟨.guard, 7, 0, none⟩, ⟨.mul, 2, -1, none⟩,
        ⟨.label, 7, 0, none⟩, ⟨.mul, -1, 0, none⟩],
        { clearLoops := 1, multiplyLoops := 1, foldedStores := 1, removedStores := 1 }) := by
    cbv
  have hs : Store.Regular .bits8 { tape := #[1, 2], pointer := 1 } :=
    ⟨by simp [Width.mask, Width.modulus], by decide, ⟨rfl, rfl⟩⟩
  exact ⟨_, _, _, rfl, rfl, hwf, hflat, rfl, hs,
    (flatten_keeps_behaviour hwf hflat rfl .bits8 { tape := #[1, 2], pointer := 1 } hs).1.1⟩

end Stream

end TapeCompiler
