/-
TapeCompiler.Proofs.Flattening — flattening as rewriting of trees.

The flattener works its way through the flat stream, remembers whether the
current cell is zero, and may take back the last instruction it has written.
`Tree.Flattens` tells the same by rules on trees. A rule may use that the
current cell is zero, which is what its first index says, and
`Stream.flattens_of_flatten` says that the pass stays within the rules.

The rules keep the nesting, and lose labels but invent none
(`Tree.Flattens.labels_sublist`). What they keep of the meaning holds where
no division was made: `divides` is the proposition that the rules may divide,
and with `False` for it the rules are sound (`Tree.Flattens.refines`).
-/
import TapeCompiler.Proofs.LoopRules

namespace TapeCompiler

/-! ## 1. The rules -/

/-- The instruction leaves a zero in the current cell. -/
def Instruction.Zeroing (i : Instruction) : Prop :=
  i.opcode = .scanRight ∨ i.opcode = .scanLeft ∨ i.opcode = .printRun ∨
    i.opcode = .mul ∧ i.value = -1 ∧ i.offset = 0

namespace Tree

/-- One tree comes from another by flattening loops, given that the current
cell is zero if the index is set. -/
inductive Flattens (divides : Prop) : Bool → Tree → Tree → Prop where
  | refl (zero : Bool) (t : Tree) : Flattens divides zero t t
  | trans {zero : Bool} {t₁ t₂ t₃ : Tree} (first : Flattens divides zero t₁ t₂)
      (second : Flattens divides zero t₂ t₃) : Flattens divides zero t₁ t₃
  | forget {zero : Bool} {t t' : Tree} (h : Flattens divides false t t') :
      Flattens divides zero t t'
  | step {zero after : Bool} {i : Instruction} {plain : i.Plain} {rest rest' : Tree}
      (hafter : after = true → i.Zeroing) (h : Flattens divides after rest rest') :
      Flattens divides zero (step i plain rest) (step i plain rest')
  | block {zero after : Bool} {start close : Instruction} {closes : close.Closes start}
      {body body' rest rest' : Tree} (hafter : after = true → start.opcode = .loopStart)
      (hbody : Flattens divides false body body') (hrest : Flattens divides after rest rest') :
      Flattens divides zero (block start body close closes rest)
        (block start body' close closes rest')
  | dead {start close : Instruction} {closes : close.Closes start} {body rest : Tree} :
      Flattens divides true (block start body close closes rest) rest
  | scan {zero : Bool} {start close i j : Instruction} {closes : close.Closes start}
      {body rest : Tree} {plain : j.Plain} (kind : start.opcode = .loopStart)
      (single : body.code = [i]) (unit : i.value = 1)
      (walk : i.opcode = .right ∧ j.opcode = .scanRight ∨
        i.opcode = .left ∧ j.opcode = .scanLeft) :
      Flattens divides zero (block start body close closes rest) (step j plain rest)
  | print {zero : Bool} {start close out next j : Instruction} {closes : close.Closes start}
      {body rest : Tree} {plain : j.Plain} (kind : start.opcode = .loopStart)
      (pair : body.code = [out, next]) (writes : out.opcode = .write) (once : out.value = 1)
      (walks : next.opcode = .right) (unit : next.value = 1) (prints : j.opcode = .printRun) :
      Flattens divides zero (block start body close closes rest) (step j plain rest)
  | clear {zero : Bool} {start close i : Instruction} {closes : close.Closes start}
      {body rest : Tree} {position : Option Position}
      {plain : (Instruction.clearing position).Plain} (kind : start.opcode = .loopStart)
      (single : body.code = [i]) (counts : i.IsCellStep) :
      Flattens divides zero (block start body close closes rest)
        (step (.clearing position) plain rest)
  | absorb {zero : Bool} {i : Instruction} {plain : i.Plain} {position : Option Position}
      {plain' : (Instruction.clearing position).Plain} {rest : Tree}
      (pointless : Flattener.overwritten i = true) :
      Flattens divides zero (step i plain (step (.clearing position) plain' rest))
        (step (.clearing position) plain' rest)
  | fold {zero : Bool} {i : Instruction} {position : Option Position}
      {plain : (Instruction.clearing position).Plain} {plain' : i.Plain}
      {plain'' : (⟨.store, i.amount, 0, i.position⟩ : Instruction).Plain} {rest : Tree}
      (counts : i.IsCellStep) :
      Flattens divides zero (step (.clearing position) plain (step i plain' rest))
        (step ⟨.store, i.amount, 0, i.position⟩ plain'' rest)
  | multiply {zero : Bool} {start close start' close' : Instruction}
      {closes : close.Closes start} {closes' : close'.Closes start'} {body rest : Tree}
      {steps : List Instruction} {hplain : ∀ i ∈ steps, i.Plain} {position : Option Position}
      {plain : (Instruction.clearing position).Plain} (kind : start.opcode = .loopStart)
      (guards : start'.opcode = .guard) (label : start'.value = start.value)
      (final : finalPointer? 0 body.code = .ok (some 0))
      (terms : counterDrop? 0 0 body.code = .ok (some 1) ∧ products 0 [] body.code = .ok steps ∨
        divides) :
      Flattens divides zero (block start body close closes rest)
        (block start' (prepend steps hplain done) close' closes'
          (step (.clearing position) plain rest))

namespace Flattens

variable {divides : Prop} {zero : Bool} {t t' : Tree}

/-- Behind an instruction nothing is known of the cell. -/
theorem behind {i : Instruction} {plain : i.Plain} (h : Flattens divides false t t') :
    Flattens divides zero (Tree.step i plain t) (Tree.step i plain t') :=
  .step (fun hfalse => by cases hfalse) h

theorem prepend {steps : List Instruction} (hplain : ∀ i ∈ steps, i.Plain)
    (h : Flattens divides false t t') :
    Flattens divides zero (prepend steps hplain t) (prepend steps hplain t') := by
  induction steps generalizing zero with
  | nil => exact .forget h
  | cons i steps ih => exact .behind (ih _)

/-- No rule invents a label or puts two of them in another order. -/
theorem labels_sublist (h : Flattens divides zero t t') :
    (Stream.labels t'.code).Sublist (Stream.labels t.code) := by
  induction h with
  | refl => exact .refl _
  | trans _ _ ih ih' => exact ih'.trans ih
  | forget _ ih => exact ih
  | step _ _ ih => simpa only [labels_step] using ih
  | block _ _ _ ihb ihr =>
    simp only [labels_block]
    exact (ihb.append ihr).cons_cons _
  | dead =>
    rw [labels_block]
    exact (List.sublist_append_right _ _).cons _
  | scan =>
    rw [labels_block, labels_step]
    exact (List.sublist_append_right _ _).cons _
  | print =>
    rw [labels_block, labels_step]
    exact (List.sublist_append_right _ _).cons _
  | clear =>
    rw [labels_block, labels_step]
    exact (List.sublist_append_right _ _).cons _
  | absorb => simp only [labels_step, List.Sublist.refl]
  | fold => simp only [labels_step, List.Sublist.refl]
  | @multiply _ _ _ _ _ _ _ _ _ _ hplain _ _ _ _ label _ _ =>
    simp only [labels_block, labels_step, code_prepend, code_done, List.append_nil,
      labels_plain hplain, List.nil_append, label]
    exact (List.sublist_append_right _ _).cons_cons _

/-- What a zeroing instruction leaves. -/
theorem cell_of_zeroing {w : Width} {i : Instruction} (h : i.Zeroing) {s s₁ : Store}
    (he : i.effect w s = .ok s₁) : s₁.cell 0 none = .ok 0 := by
  rcases h with h | h | h | ⟨h, hvalue, hoffset⟩
  · simp only [Instruction.effect, h] at he
    exact Store.cell_of_scan he
  · simp only [Instruction.effect, h] at he
    exact Store.cell_of_scan he
  · simp only [Instruction.effect, h] at he
    exact Store.cell_of_printRun he
  · simp only [Instruction.effect, h, hvalue, hoffset, and_self, if_true] at he
    exact Store.cell_of_setCell none he

/-- **Where no division is made, every rule leads to a refinement.** -/
theorem refines (h : Flattens False zero t t') (w : Width) : Refines w zero t t' := by
  induction h with
  | refl => exact .refl _
  | trans _ _ ih ih' => exact ih.trans ih'
  | forget _ ih => exact ih.forget
  | step hafter _ ih => exact .step (fun hz _ _ he => cell_of_zeroing (hafter hz) he) ih
  | @block _ after _ _ closes _ _ _ _ hafter _ _ ihb ihr =>
    rcases closes.kinds with ⟨hkind, -⟩ | ⟨hkind, -⟩
    · cases after with
      | true => exact .loop hkind ihb ihr
      | false => exact .loop hkind ihb ihr.forget
    · cases after with
      | true => simp [hkind] at hafter
      | false => exact .guard hkind ihb ihr
  | dead => exact refines_dead
  | scan kind single unit walk =>
    rcases walk with ⟨hi, hj⟩ | ⟨hi, hj⟩
    · refine refines_scan .right kind single (Instruction.IsMove.plain (.inl hi))
        (fun s => ?_) (fun s => ?_)
      · simp [Instruction.effect, Instruction.displacement, hi, unit, Direction.step]
      · simp [Instruction.effect, hj]
    · refine refines_scan .left kind single (Instruction.IsMove.plain (.inr hi))
        (fun s => ?_) (fun s => ?_)
      · simp [Instruction.effect, Instruction.displacement, hi, unit, Direction.step, Operand.neg,
          Operand.checked, Operand.InRange, Operand.least, Operand.greatest]
      · simp [Instruction.effect, hj]
  | print kind pair writes once walks unit prints =>
    exact refines_print kind pair writes once walks unit prints
  | clear kind single counts => exact refines_clear kind single counts
  | absorb pointless => exact refines_absorb pointless
  | fold counts => exact refines_fold counts
  | multiply kind guards _ final terms =>
    rcases terms with ⟨hdrop, hterms⟩ | hdivides
    · exact refines_multiply kind guards final hdrop hterms
    · exact hdivides.elim

end Flattens

end Tree

end TapeCompiler
