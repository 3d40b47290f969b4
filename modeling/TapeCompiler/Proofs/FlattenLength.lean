/-
TapeCompiler.Proofs.FlattenLength — flattening makes no stream longer.

A flattened loop is written with four kinds of instructions that were not in
it: a guard, a label, the clear of the counter, and a division. Two of them
take the place of the brackets. The other two need room in the body, and
there is some, because not every instruction of a body becomes a product:

* a step that lowers the counter does not, and without one the loop would
  stay as it is;
* a move does not, and without one no product lies beside the counter
  (`length_deposits_lt`).

So a body that becomes products has at least two instructions more than
products (`Verdict.length_terms`). That is all a division needs, and a body
of two steps down keeps its length. All other rules make the stream shorter,
and `LoopStats.saved` says by how much at least. The bound is an induction on
what becomes of a tree (`LoopTree.Becomes.length_le`);
`Stream.flatten_never_lengthens` is the main result.
-/
import TapeCompiler.Proofs.Divisors

namespace TapeCompiler

/-! ## 1. Room in a body -/

theorem length_deposits_le (pointer : Int) (body : List Instruction) :
    (deposits pointer body).length ≤ body.length := by
  induction body generalizing pointer with
  | nil => exact Nat.le_refl _
  | cons i rest ih =>
    by_cases hstep : i.IsCellStep
    · rw [deposits_of_cellStep hstep]
      exact Nat.succ_le_succ (ih pointer)
    · rw [deposits, if_neg hstep]
      exact Nat.le_succ_of_le (ih _)

/-- A body that reaches another cell has a move, which deposits nothing. -/
theorem length_deposits_lt {pointer : Int} {body : List Instruction} {d : Deposit}
    (hd : d ∈ deposits pointer body) (hbeside : d.offset ≠ pointer) :
    (deposits pointer body).length < body.length := by
  induction body generalizing pointer with
  | nil => cases hd
  | cons i rest ih =>
    by_cases hstep : i.IsCellStep
    · rw [deposits_of_cellStep hstep] at hd ⊢
      rcases List.mem_cons.1 hd with rfl | hd
      · exact absurd rfl hbeside
      · exact Nat.succ_lt_succ (ih hd hbeside)
    · rw [deposits, if_neg hstep]
      exact Nat.lt_succ_of_le (length_deposits_le _ rest)

/-- A counter that goes down has a step on its own cell. -/
theorem exists_own_deposit {deposits : List Deposit} (h : ownShare deposits ≠ 0) :
    ∃ d ∈ deposits, d.offset = 0 := by
  by_contra hnone
  have hempty : deposits.filter (fun d => d.offset = 0) = [] := by
    refine List.filter_eq_nil_iff.2 fun d hd hown => hnone ⟨d, hd, ?_⟩
    simpa using hown
  exact h (by simp [ownShare, hempty])

namespace Verdict

variable {target : Target} {body terms : List Instruction} {drop : Int}

/-- **A body has two instructions more than products**: one for the counter,
and either a move or another one for the counter. -/
theorem length_terms (h : ofLoop target body = .ok (multiply drop terms)) :
    terms.length + 2 ≤ body.length := by
  obtain ⟨-, hdrop, hne, hproducts, hother⟩ := multiplies_of_ofLoop h
  have hlowers : ownShare (deposits 0 body) ≠ 0 := by
    rw [ownShare_of_counterDrop hdrop]
    omega
  obtain ⟨own, hown, hzero⟩ := exists_own_deposit hlowers
  -- the products are the deposits but for those on the counter
  have hterms : terms = ((deposits 0 body).filter (fun d => d.offset ≠ 0)).map Deposit.product := by
    simpa using products_eq hproducts
  have hfewer : terms.length < (deposits 0 body).length := by
    rw [hterms, List.length_map]
    exact List.length_filter_lt_length_iff_exists.2 ⟨own, hown, by simp [hzero]⟩
  cases hcase : terms with
  | nil =>
    match body, hother, hown with
    | [i], hother, hown =>
      rw [deposits, if_neg (hother i rfl)] at hown
      cases hown
    | _ :: _ :: _, _, _ => exact Nat.le_add_left _ _
  | cons term others =>
    have hmem : term ∈ terms := by simp [hcase]
    obtain ⟨d, hd, hbeside, -⟩ := mem_products hproducts hmem
    have hmoves := length_deposits_lt hd hbeside
    rw [← hcase]
    omega

end Verdict

/-! ## 2. The rules -/

/-- How many instructions the rules that were used save at least: a loop
that is dropped or replaced by one instruction, or a step that is taken in. -/
def LoopStats.saved (n : LoopStats) : Nat :=
  2 * (n.deadLoops + n.clearLoops + n.scans) + 3 * n.prints + n.foldedStores + n.removedStores

theorem LoopStats.saved_add (a b : LoopStats) : (a + b).saved = a.saved + b.saved := by
  simp only [saved, add_eq]
  omega

/-- A scan or print loop gives way to one instruction. -/
theorem LoopStats.saved_ofPattern {target : Target} {body : List Instruction} {opcode : Opcode}
    (h : patternOpcode? target body = some opcode) :
    (ofPattern opcode).saved = body.length + 1 := by
  rcases patternOpcode_cases h with ⟨_, rfl, -, ⟨-, rfl⟩ | ⟨-, rfl⟩⟩ |
    ⟨_, _, rfl, -, -, -, -, rfl⟩ <;> rfl

/-- The guarded products and the clear behind them fit where the loop was. -/
theorem Flattener.length_guarded {target : Target} {body terms : List Instruction} {drop : Int}
    (h : Verdict.ofLoop target body = .ok (.multiply drop terms)) (start close : Instruction) :
    (guarded start drop terms close).length + 1 ≤ body.length + 2 := by
  have hterms := Verdict.length_terms h
  have hdivision : (if drop = 1 then [] else
      [(⟨.div, drop, 0, start.position⟩ : Instruction)]).length ≤ 1 := by
    split <;> simp
  simp only [guarded, List.cons_append, List.length_cons, List.length_append, List.length_nil]
  omega

open LoopStats in
/-- What becomes of a tree is no longer than the tree and what is held. -/
theorem LoopTree.Becomes.length_le {target : Target} {m : Mode} {t u : LoopTree} {n : LoopStats}
    (h : Becomes target m t u n) :
    u.code.length + n.saved ≤ m.pending.length + t.code.length := by
  induction h with
  | done m =>
    rw [Mode.code_settle]
    simp [saved]
  | @fold start i value outside rest u n stored _ ih =>
    have howed : (Mode.owing start).pending.length = 1 := rfl
    have hrest : u.code.length + n.saved ≤ 1 + rest.code.length := ih
    rw [saved_add, code_step]
    simp only [List.length_cons, saved] at hrest ⊢
    omega
  | @hold m i outside rest u n undone alone _ ih =>
    have hrest : u.code.length + n.saved ≤ 1 + rest.code.length := ih
    rw [Mode.code_settle, code_step]
    simp only [List.length_append, List.length_cons]
    omega
  | @pass m i outside rest u n stays _ ih =>
    have hrest : u.code.length + n.saved ≤ 0 + rest.code.length := ih
    rw [Mode.code_settle, code_step, code_step]
    simp only [List.length_append, List.length_cons]
    omega
  | @dead m start close body rest u n opens closes hm _ ih =>
    have hrest : u.code.length + n.saved ≤ 0 + rest.code.length := ih
    rw [Mode.code_settle, saved_add, code_loop]
    simp only [List.length_append, List.length_cons, saved] at hrest ⊢
    omega
  | @keep m start close body body' rest u n n' opens closes hm verdict _ _ ihb ihr =>
    have hbody : body'.code.length + n.saved ≤ 0 + body.code.length := ihb
    have hrest : u.code.length + n'.saved ≤ 0 + rest.code.length := ihr
    rw [Mode.code_settle, saved_add, code_loop, code_loop]
    simp only [List.length_append, List.length_cons]
    omega
  | @pattern m start close body rest u n opens closes opcode hm verdict outside _ ih =>
    have hsaved := saved_ofPattern (Verdict.patternOpcode_of_ofLoop verdict)
    have hrest : u.code.length + n.saved ≤ 0 + rest.code.length := ih
    rw [Mode.code_settle, saved_add, code_step, code_loop]
    simp only [List.length_append, List.length_cons]
    omega
  | @clear m start close body rest u n opens closes hm verdict _ ih =>
    -- the body is one step, and what is held goes with it
    obtain ⟨i, single, -⟩ := Verdict.single_of_clear verdict
    have hbody : body.code.length = 1 := by rw [single, List.length_singleton]
    have hrest : u.code.length + n.saved ≤ 1 + rest.code.length := ih
    rw [saved_add, code_loop]
    simp only [List.length_append, List.length_cons, saved] at hrest ⊢
    omega
  | @multiply m start close body rest u n opens closes drop terms hm verdict outside _ ih =>
    have hfits := Flattener.length_guarded verdict start close
    have hrest : u.code.length + n.saved ≤ 1 + rest.code.length := ih
    rw [Mode.code_settle, saved_add, code_prepend, code_loop]
    simp only [List.length_append, List.length_cons, saved] at hrest ⊢
    omega

/-! ## 3. Whole streams -/

namespace Stream

variable {target : Target} {code code' : List Instruction} {n : LoopStats}

theorem Becomes.length_le {m : Mode} (h : Becomes target m code code' n) :
    code'.length + n.saved ≤ m.pending.length + code.length := by
  induction h with
  | last h => exact h.length_le
  | @next m t u n n' close more more' h closes _ ih =>
    have hle := h.length_le
    have hmore : more'.length + n'.saved ≤ 0 + more.length := ih
    rw [LoopStats.saved_add]
    simp only [List.length_append, List.length_cons]
    omega

/-- The counters tell by how much a stream gets shorter at least. -/
theorem length_add_saved_le (h : flattenWithStats target code = .ok (code', n)) :
    code'.length + n.saved ≤ code.length := by
  have hle : code'.length + n.saved ≤ 0 + code.length := (flattenWithStats_eq_ok_iff.1 h).length_le
  omega

/-- **Flattening never makes a stream longer**, whatever its instructions. -/
theorem flatten_never_lengthens (h : flatten target code = .ok code') :
    code'.length ≤ code.length := by
  obtain ⟨⟨flattened, n⟩, hstats, hcode⟩ := bind_eq_ok_iff.1 h
  cases hcode
  have hle := length_add_saved_le hstats
  omega

/-- Two steps down are as long as a division by two. -/
theorem flatten_never_lengthens_halving :
    ∃ code code' : List Instruction,
      code = [⟨.loopStart, 1, 0, none⟩, ⟨.sub, 1, 0, none⟩, ⟨.sub, 1, 0, none⟩,
        ⟨.loopEnd, 1, 0, none⟩] ∧
      code' = [⟨.guard, 1, 0, none⟩, ⟨.div, 2, 0, none⟩, ⟨.label, 1, 0, none⟩,
        ⟨.mul, -1, 0, none⟩] ∧
      flatten .llvm code = .ok code' ∧ code'.length ≤ code.length := by
  have hflatten : flatten .llvm [⟨.loopStart, 1, 0, none⟩, ⟨.sub, 1, 0, none⟩, ⟨.sub, 1, 0, none⟩,
      ⟨.loopEnd, 1, 0, none⟩] = .ok [⟨.guard, 1, 0, none⟩, ⟨.div, 2, 0, none⟩,
        ⟨.label, 1, 0, none⟩, ⟨.mul, -1, 0, none⟩] := by
    cbv
  exact ⟨_, _, rfl, rfl, hflatten, flatten_never_lengthens hflatten⟩

end Stream

end TapeCompiler
