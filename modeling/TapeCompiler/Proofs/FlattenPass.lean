/-
TapeCompiler.Proofs.FlattenPass — the pass follows the rules of flattening.

The flattener goes over a flat stream; here it goes over the stream of a
tree. What it holds, the last instruction it wrote if a clear would undo it,
counts as the first step of the tree that is left.

`Flattener.Follows` says of a tree that whenever the flattener comes to
its stream it leaves it behind, with a tree written that the rules lead
to. It is shown for one node at a time, and for all trees by induction on
the length of their streams: a store may be folded with the instruction
behind a loop, so what is left is not always a direct part of the tree.
-/
import TapeCompiler.Proofs.FlattenStep
import TapeCompiler.Proofs.Flattening

namespace TapeCompiler

/-! ## 1. Loops of a tree -/

/-- Whole blocks are passed in the search for a closing bracket. -/
theorem LoopParts.find?_code (t : Tree) (depth : Nat) (passed more : List Instruction) :
    find? depth passed (t.code ++ more) = find? depth (t.code.reverse ++ passed) more := by
  induction t generalizing depth passed more with
  | done => rfl
  | step i plain rest ih =>
    have hskip : find? depth passed (i :: (rest.code ++ more)) =
        find? depth (i :: passed) (rest.code ++ more) := by
      have hopen := plain.1
      have hclose := plain.2
      cases hop : i.opcode <;> simp_all [find?, Opcode.opensBlock, Opcode.closesBlock]
    simp [hskip, ih]
  | block start body close closes rest ihb ihr =>
    rcases closes.kinds with ⟨hs, hc⟩ | ⟨hs, hc⟩
    · simp [find?, hs, hc, ihb, ihr]
    · simp [find?, hs, hc, ihb, ihr]

/-- The parts of a loop are those of its block. -/
theorem LoopParts.find?_block (body : Tree) {close : Instruction} (hc : close.opcode = .loopEnd)
    (more : List Instruction) :
    find? 0 [] (body.code ++ close :: more) = some ⟨body.code, close, more⟩ := by
  rw [find?_code]
  simp [find?, hc]

namespace Flattener

theorem loopStep_of_step {target : Target} {r r' : Flattener} {start close : Instruction}
    {body : Tree} {more rest' : List Instruction} (hs : start.opcode = .loopStart)
    (hc : close.opcode = .loopEnd)
    (h : r.step target start (body.code ++ close :: more) = .ok (r', rest')) :
    LoopStep target r start (body.code ++ close :: more) ⟨body.code, close, more⟩ r' rest' := by
  rcases step_cases h with ⟨hs', -⟩ | ⟨parts, -, hparts, hstep⟩
  · exact absurd hs hs'
  · rw [LoopParts.find?_block body hc] at hparts
    cases hparts
    exact hstep

/-! ## 2. What is held, as part of a tree -/

/-- Nothing that a clear would undo stands behind a loop. -/
def Sound (r : Flattener) : Prop := r.cellIsZero = true → r.held = []

theorem overwritten_plain {i : Instruction} (h : overwritten i = true) : i.Plain := by
  unfold overwritten at h
  unfold Instruction.Plain
  cases hop : i.opcode <;> simp_all [Opcode.opensBlock, Opcode.closesBlock]

theorem held_plain (r : Flattener) : ∀ i ∈ r.held, i.Plain := by
  unfold held
  split
  · split
    · rename_i i _ hi
      exact fun j hj => List.mem_singleton.1 hj ▸ overwritten_plain hi
    · simp
  · simp

/-- What is held comes before what is written next. -/
theorem settled_append_code (r : Flattener) (t : Tree) :
    r.settled.reverse ++ (Tree.prepend r.held r.held_plain t).code =
      r.output.reverse ++ t.code := by
  rw [Tree.code_prepend, ← List.append_assoc, settled_append_held]

section Held

variable {r : Flattener} {i : Instruction} {older : List Instruction}

theorem settled_of_overwritten (h : r.output = i :: older) (hi : overwritten i = true) :
    r.settled = older := by
  simp [settled, h, hi]

theorem settled_of_not_overwritten (h : r.output = i :: older) (hi : overwritten i = false) :
    r.settled = i :: older := by
  simp [settled, h, hi]

theorem prepend_held_of_overwritten (h : r.output = i :: older) (hi : overwritten i = true)
    (plain : i.Plain) (t : Tree) : Tree.prepend r.held r.held_plain t = .step i plain t := by
  have hheld : r.held = [i] := by simp [held, h, hi]
  simp only [hheld]
  rfl

theorem prepend_held_of_not_overwritten (h : r.output = i :: older) (hi : overwritten i = false)
    (t : Tree) : Tree.prepend r.held r.held_plain t = t := by
  have hheld : r.held = [] := by simp [held, h, hi]
  simp only [hheld]
  rfl

theorem sound_of_not_overwritten (h : r.output = i :: older) (hi : overwritten i = false) :
    r.Sound := by
  simp [Sound, held, h, hi]

end Held

/-! ## 3. The count of divisions -/

theorem divisions_of_finishCell {r r' : Flattener} {start : Instruction}
    {rest rest' : List Instruction} (h : r.finishCell start rest = .ok (r', rest')) :
    r'.stats.divisions = r.stats.divisions := by
  rcases finishCell_cases h with ⟨rfl, -⟩ | ⟨next, -, -, rfl⟩ <;> rfl

theorem LoopStep.divisions_le {target : Target} {r r' : Flattener} {start : Instruction}
    {rest rest' : List Instruction} {parts : LoopParts}
    (h : LoopStep target r start rest parts r' rest') :
    r.stats.divisions ≤ r'.stats.divisions := by
  cases h with
  | dead => exact Nat.le_refl _
  | kept => exact Nat.le_refl _
  | pattern =>
    rw [putPattern_eq]
    exact Nat.le_add_right _ _
  | clear _ _ finish =>
    rw [divisions_of_finishCell finish, clear_eq]
    exact Nat.le_add_right _ _
  | multiply _ _ finish =>
    rw [divisions_of_finishCell finish, multiply_eq]
    exact Nat.le_add_right _ _

/-- The count of divisions never goes down. -/
theorem divisions_le_of_run {target : Target} {r final : Flattener} {code : List Instruction}
    (h : run target r code = .ok final) : r.stats.divisions ≤ final.stats.divisions := by
  fun_induction run target r code with
  | case1 =>
    cases h
    exact Nat.le_refl _
  | case2 => cases h
  | case3 r i rest r' rest' hstep _ ih =>
    refine Nat.le_trans ?_ (ih h)
    rcases step_cases hstep with ⟨-, rfl, -⟩ | ⟨parts, -, -, hloop⟩
    · exact Nat.le_refl _
    · exact hloop.divisions_le

/-! ## 4. One node at a time -/

/-- The stream ends here, or a block does. -/
def Ended (tail : List Instruction) : Prop := ∀ i ∈ tail.head?, i.opcode.closesBlock = true

/-- From `r` on, the flattener passes this tree and comes to `tail`. What it
has written instead is a tree that the rules lead to, from what it held and
this tree. -/
def Passes (target : Target) (divides : Prop) (r : Flattener) (t : Tree)
    (tail : List Instruction) (final : Flattener) : Prop :=
  ∃ r' t', run target r' tail = .ok final ∧ r.stats.divisions ≤ r'.stats.divisions ∧
    r'.output.reverse = r.settled.reverse ++ t'.code ∧
    (Tree.prepend r.held r.held_plain t).Flattens divides r.cellIsZero t'

/-- Whenever the flattener comes to the stream of this tree, it passes it. If
it divides on its way to the end, the rules may divide. -/
def Follows (target : Target) (divides : Prop) (t : Tree) : Prop :=
  ∀ (r final : Flattener) (tail : List Instruction), Ended tail → r.Sound →
    run target r (t.code ++ tail) = .ok final →
    (r.stats.divisions < final.stats.divisions → divides) →
    r.Passes target divides t tail final

variable {target : Target} {divides : Prop}

theorem follows_done : Follows target divides .done := by
  intro r final tail _ _ hrun _
  exact ⟨r, _, hrun, Nat.le_refl _, by simp [settled_append_held], .refl _ _⟩

theorem follows_step {i : Instruction} {plain : i.Plain} {rest : Tree}
    (hrest : Follows target divides rest) : Follows target divides (.step i plain rest) := by
  intro r final tail htail _ hrun hdivides
  have hloop : i.opcode ≠ .loopStart := fun hop => by
    have hopen := plain.1
    simp [hop, Opcode.opensBlock] at hopen
  have hzero : (r.keep i).cellIsZero = false := by
    have hclose := plain.2
    cases hop : i.opcode <;> simp_all [keep, Opcode.closesBlock]
  obtain ⟨_, _, hstep, hrun⟩ := run_cons hrun
  rw [step_of_not_loop hloop] at hstep
  cases hstep
  obtain ⟨r', t', hrun', hle, houtput, hflat⟩ :=
    hrest (r.keep i) final tail htail (by simp [Sound, hzero]) hrun hdivides
  rw [hzero] at hflat
  by_cases hi : overwritten i = true
  · rw [prepend_held_of_overwritten rfl hi plain] at hflat
    rw [settled_of_overwritten rfl hi] at houtput
    refine ⟨r', _, hrun', hle, ?_, .prepend r.held_plain hflat⟩
    rw [settled_append_code, houtput]
  · rw [prepend_held_of_not_overwritten rfl (by simpa using hi)] at hflat
    rw [settled_of_not_overwritten rfl (by simpa using hi)] at houtput
    refine ⟨r', Tree.prepend r.held r.held_plain (.step i plain t'), hrun', hle, ?_,
      .prepend r.held_plain (.behind hflat)⟩
    rw [settled_append_code, houtput]
    simp

theorem not_overwritten_of_opens {i : Instruction} (h : i.opcode.opensBlock = true) :
    overwritten i = false := by
  unfold overwritten
  cases hop : i.opcode <;> simp_all [Opcode.opensBlock]

theorem not_overwritten_of_closes {i : Instruction} (h : i.opcode.closesBlock = true) :
    overwritten i = false := by
  unfold overwritten
  cases hop : i.opcode <;> simp_all [Opcode.closesBlock]

section Block

variable {start close : Instruction} {closes : close.Closes start} {body rest : Tree}
  {r final : Flattener} {tail : List Instruction}

/-- A block whose opening bracket is taken over is taken over as a block. -/
theorem follows_kept (hbody : Follows target divides body) (hrest : Follows target divides rest)
    (closes : close.Closes start) (htail : Ended tail)
    (hrun : run target (r.keep start) (body.code ++ close :: (rest.code ++ tail)) = .ok final)
    (hdivides : r.stats.divisions < final.stats.divisions → divides) :
    r.Passes target divides (.block start body close closes rest) tail final := by
  have hopen := not_overwritten_of_opens closes.opens
  have hclose := not_overwritten_of_closes closes.closes
  have hentered : (r.keep start).cellIsZero = false := by
    rcases closes.kinds with ⟨hs, -⟩ | ⟨hs, -⟩ <;> simp [keep, hs]
  have hclosed : Ended (close :: (rest.code ++ tail)) := by simp [Ended, closes.closes]
  obtain ⟨r₂, body', hrun₂, hle₂, houtput₂, hflat₂⟩ :=
    hbody (r.keep start) final _ hclosed (by simp [Sound, hentered]) hrun hdivides
  rw [prepend_held_of_not_overwritten rfl hopen, hentered] at hflat₂
  rw [settled_of_not_overwritten rfl hopen] at houtput₂
  have hloop : close.opcode ≠ .loopStart := fun hop => by
    have hnot := closes.not_opens
    simp [hop, Opcode.opensBlock] at hnot
  obtain ⟨_, _, hstep, hrun₃⟩ := run_cons hrun₂
  rw [step_of_not_loop hloop] at hstep
  cases hstep
  obtain ⟨r', rest', hrun', hle', houtput', hflat'⟩ :=
    hrest (r₂.keep close) final tail htail (sound_of_not_overwritten rfl hclose) hrun₃
      (fun hlt => hdivides (Nat.lt_of_le_of_lt hle₂ hlt))
  rw [prepend_held_of_not_overwritten rfl hclose] at hflat'
  rw [settled_of_not_overwritten rfl hclose] at houtput'
  have hafter : (r₂.keep close).cellIsZero = true → start.opcode = .loopStart := by
    rcases closes.kinds with ⟨hs, -⟩ | ⟨-, hc⟩
    · exact fun _ => hs
    · simp [keep, hc]
  refine ⟨r', Tree.prepend r.held r.held_plain (.block start body' close closes rest'), hrun',
    Nat.le_trans hle₂ hle', ?_, .prepend r.held_plain (.block hafter hflat₂ hflat')⟩
  rw [settled_append_code, houtput']
  simp [houtput₂]

/-- The end of a flattened loop: the rules lead from the clear to what is
written, be it the clear itself or a store. -/
theorem follows_finish
    (hrest : ∀ u : Tree, u.code.length ≤ rest.code.length → Follows target divides u)
    (htail : Ended tail) {r₁ : Flattener} {rest₁ : List Instruction}
    (hfinish : r.finishCell start (rest.code ++ tail) = .ok (r₁, rest₁))
    (hrun : run target r₁ rest₁ = .ok final)
    (hdivides : r.stats.divisions < final.stats.divisions → divides)
    (plain : (Instruction.clearing start.position).Plain) :
    ∃ r' t', run target r' tail = .ok final ∧ r.stats.divisions ≤ r'.stats.divisions ∧
      r'.output.reverse = r.output.reverse ++ t'.code ∧
      ∀ zero, (Tree.step (.clearing start.position) plain rest).Flattens divides zero t' := by
  rcases finishCell_cases hfinish with ⟨rfl, rfl⟩ | ⟨next, hnext, hcode, rfl⟩
  · have hclear : overwritten (.clearing start.position) = false := rfl
    obtain ⟨r', t', hrun', hle', houtput', hflat'⟩ := hrest rest (Nat.le_refl _)
      (r.putClear start) final tail htail (sound_of_not_overwritten rfl hclear) hrun hdivides
    rw [prepend_held_of_not_overwritten rfl hclear] at hflat'
    rw [settled_of_not_overwritten rfl hclear] at houtput'
    refine ⟨r', .step (.clearing start.position) plain t', hrun', hle', by simp [houtput'],
      fun zero => .step (fun _ => ?_) hflat'⟩
    exact .inr (.inr (.inr ⟨rfl, rfl, rfl⟩))
  · -- the next instruction is the first of what follows the loop
    cases rest with
    | done =>
      rw [Tree.code_done, List.nil_append] at hcode
      have hclosed := htail next (by simp [hcode])
      simp [hnext.plain.2] at hclosed
    | block start' body' close' closes' rest' =>
      have hopens := closes'.opens
      obtain ⟨rfl, -⟩ := List.cons_eq_cons.1 hcode
      simp [hnext.plain.1] at hopens
    | step i plainNext rest' =>
      obtain ⟨rfl, rfl⟩ := List.cons_eq_cons.1 hcode
      have hstore : overwritten ⟨.store, i.amount, 0, i.position⟩ = true := rfl
      obtain ⟨r', t', hrun', hle', houtput', hflat'⟩ := hrest rest' (by simp)
        (r.putStore i.amount i) final tail htail (by simp [Sound, putStore]) hrun hdivides
      rw [prepend_held_of_overwritten rfl hstore (overwritten_plain hstore)] at hflat'
      rw [settled_of_overwritten rfl hstore] at houtput'
      exact ⟨r', t', hrun', hle', houtput', fun zero => .trans (.fold hnext) (.forget hflat')⟩

/-- A loop behind a loop is dropped. -/
theorem follows_dead (hrest : Follows target divides rest) (htail : Ended tail) (hsound : r.Sound)
    (hzero : r.cellIsZero = true) (hrun : run target r.dropDead (rest.code ++ tail) = .ok final)
    (hdivides : r.stats.divisions < final.stats.divisions → divides) :
    r.Passes target divides (.block start body close closes rest) tail final := by
  have hheld (t : Tree) : Tree.prepend r.held r.held_plain t = t := by
    simp only [hsound hzero]
    rfl
  obtain ⟨r', t', hrun', hle', houtput', hflat'⟩ :=
    hrest r.dropDead final tail htail hsound hrun hdivides
  refine ⟨r', t', hrun', hle', houtput', ?_⟩
  rw [hheld, hzero]
  have hflat : rest.Flattens divides true t' := by
    rw [← hzero, ← hheld rest]
    exact hflat'
  exact .trans .dead hflat

/-- The instruction for a scan or print loop. -/
theorem flattens_pattern {opcode : Opcode} (closes : close.Closes start)
    (hs : start.opcode = .loopStart)
    (h : patternOpcode? target body.code = some opcode) :
    overwritten ⟨opcode, 0, 0, start.position⟩ = false ∧
      Instruction.Zeroing ⟨opcode, 0, 0, start.position⟩ ∧
      ∃ plain : Instruction.Plain ⟨opcode, 0, 0, start.position⟩,
        (Tree.block start body close closes rest).Flattens divides false
          (.step ⟨opcode, 0, 0, start.position⟩ plain rest) := by
  rcases patternOpcode_cases h with ⟨i, hcode, hvalue, hwalk⟩ |
    ⟨out, next, hcode, hw, ho, hr, hu, rfl⟩
  · rcases hwalk with ⟨hi, rfl⟩ | ⟨hi, rfl⟩
    · exact ⟨rfl, .inl rfl, ⟨rfl, rfl⟩, .scan hs hcode hvalue (.inl ⟨hi, rfl⟩)⟩
    · exact ⟨rfl, .inr (.inl rfl), ⟨rfl, rfl⟩, .scan hs hcode hvalue (.inr ⟨hi, rfl⟩)⟩
  · exact ⟨rfl, .inr (.inr (.inl rfl)), ⟨rfl, rfl⟩, .print hs hcode hw ho hr hu rfl⟩

/-- A scan or print loop becomes one instruction. -/
theorem follows_pattern {opcode : Opcode} (hrest : Follows target divides rest)
    (htail : Ended tail) (hs : start.opcode = .loopStart)
    (hpattern : patternOpcode? target body.code = some opcode)
    (hrun : run target (r.putPattern opcode start) (rest.code ++ tail) = .ok final)
    (hdivides : r.stats.divisions < final.stats.divisions → divides) :
    r.Passes target divides (.block start body close closes rest) tail final := by
  have hstats : (r.putPattern opcode start).stats.divisions = r.stats.divisions := by
    rw [putPattern_eq, LoopStats.ofPattern]
    split <;> rfl
  obtain ⟨hkept, hzeroing, plain, hflat⟩ := flattens_pattern closes hs hpattern
  obtain ⟨r', t', hrun', hle', houtput', hflat'⟩ := hrest (r.putPattern opcode start) final tail
    htail (sound_of_not_overwritten rfl hkept) hrun (by rwa [hstats])
  rw [prepend_held_of_not_overwritten rfl hkept] at hflat'
  rw [settled_of_not_overwritten rfl hkept] at houtput'
  rw [hstats] at hle'
  refine ⟨r', Tree.prepend r.held r.held_plain (.step _ plain t'), hrun', hle', ?_,
    .prepend r.held_plain (.trans hflat (.step (fun _ => hzeroing) hflat'))⟩
  rw [settled_append_code, houtput']
  simp

/-- What is held before a clear may go. -/
theorem flattens_clear (r : Flattener) (zero : Bool) {position : Option Position}
    (plain : (Instruction.clearing position).Plain) (rest : Tree) :
    (Tree.prepend r.held r.held_plain (.step (.clearing position) plain rest)).Flattens
      divides zero (.step (.clearing position) plain rest) := by
  obtain ⟨output, cellIsZero, stats⟩ := r
  cases output with
  | nil => exact .refl _ _
  | cons i older =>
    by_cases hi : overwritten i = true
    · rw [prepend_held_of_overwritten rfl hi (overwritten_plain hi)]
      exact .absorb hi
    · rw [prepend_held_of_not_overwritten rfl (by simpa using hi)]
      exact .refl _ _

/-- A loop over one cell step becomes a clear. -/
theorem follows_clear {i : Instruction}
    (hrest : ∀ u : Tree, u.code.length ≤ rest.code.length → Follows target divides u)
    (htail : Ended tail) (hs : start.opcode = .loopStart) (single : body.code = [i])
    (counts : i.IsCellStep) {r₁ : Flattener} {rest₁ : List Instruction}
    (hfinish : r.clear.finishCell start (rest.code ++ tail) = .ok (r₁, rest₁))
    (hrun : run target r₁ rest₁ = .ok final)
    (hdivides : r.stats.divisions < final.stats.divisions → divides) :
    r.Passes target divides (.block start body close closes rest) tail final := by
  have plain := Instruction.plain_clearing start.position
  have hstats : r.clear.stats.divisions = r.stats.divisions := by
    rw [clear_eq]
    rfl
  have hoffered : r.clear.output = r.settled := by rw [clear_eq]
  obtain ⟨r', t', hrun', hle', houtput', hflat'⟩ :=
    follows_finish hrest htail hfinish hrun (by rwa [hstats]) plain
  rw [hstats] at hle'
  rw [hoffered] at houtput'
  exact ⟨r', t', hrun', hle', houtput', .trans (.prepend r.held_plain (.clear hs single counts))
    (.trans (flattens_clear r _ plain rest) (hflat' _))⟩

theorem plain_products {terms : List Instruction} {code : List Instruction}
    (h : products 0 [] code = .ok terms) : ∀ i ∈ terms, i.Plain := by
  intro i hi
  obtain ⟨_, -, -, rfl⟩ := mem_products h hi
  exact ⟨rfl, rfl⟩

/-- A counting loop becomes a guarded product. -/
theorem follows_multiply {drop : Int} {terms : List Instruction} (closes : close.Closes start)
    (hrest : ∀ u : Tree, u.code.length ≤ rest.code.length → Follows target divides u)
    (htail : Ended tail) (hs : start.opcode = .loopStart)
    (h : Verdict.Multiplies body.code drop terms) {r₁ : Flattener} {rest₁ : List Instruction}
    (hfinish : (r.multiply start drop terms close).finishCell start (rest.code ++ tail) =
      .ok (r₁, rest₁))
    (hrun : run target r₁ rest₁ = .ok final)
    (hdivides : r.stats.divisions < final.stats.divisions → divides) :
    r.Passes target divides (.block start body close closes rest) tail final := by
  have plain := Instruction.plain_clearing start.position
  let division : List Instruction := if drop = 1 then [] else [⟨.div, drop, 0, start.position⟩]
  have hplain : ∀ i ∈ division ++ terms, i.Plain := by
    refine List.forall_mem_append.2 ⟨?_, plain_products h.terms⟩
    by_cases hone : drop = 1 <;>
      simp [division, hone, Instruction.Plain, Opcode.opensBlock, Opcode.closesBlock]
  have hstats : (r.multiply start drop terms close).stats.divisions =
      r.stats.divisions + division.length := rfl
  have hcloses : Instruction.Closes ⟨.label, close.value, 0, close.position⟩
      ⟨.guard, start.value, 0, start.position⟩ := ⟨rfl, closes.2⟩
  have hexact : counterDrop? 0 0 body.code = .ok (some 1) ∧
      products 0 [] body.code = .ok (division ++ terms) ∨ divides := by
    by_cases hone : drop = 1
    · subst hone
      exact .inl ⟨h.drops, h.terms⟩
    · -- the division is in the count from here to the end
      have hlength : division.length = 1 := by simp [division, hone]
      have hle := divisions_le_of_run hrun
      rw [divisions_of_finishCell hfinish, hstats, hlength] at hle
      exact .inr (hdivides hle)
  have hrule : (Tree.block start body close closes rest).Flattens divides false
      (.block _ (Tree.prepend (division ++ terms) hplain .done) _ hcloses
        (.step (.clearing start.position) plain rest)) := .multiply hs rfl rfl h.final hexact
  obtain ⟨r', t', hrun', hle', houtput', hflat'⟩ := follows_finish hrest htail hfinish hrun
    (fun hlt => hdivides (Nat.lt_of_le_of_lt (Nat.le_add_right _ _) (hstats ▸ hlt))) plain
  refine ⟨r', Tree.prepend r.held r.held_plain
    (.block _ (Tree.prepend (division ++ terms) hplain .done) _ hcloses t'), hrun',
    Nat.le_trans (Nat.le_add_right _ _) (hstats ▸ hle'), ?_, .prepend r.held_plain
      (.trans hrule (.block (fun hfalse => by cases hfalse) (.refl _ _) (hflat' false)))⟩
  rw [settled_append_code, houtput']
  simp [multiply, division]

theorem follows_block (hbody : Follows target divides body)
    (hrest : ∀ u : Tree, u.code.length ≤ rest.code.length → Follows target divides u) :
    Follows target divides (.block start body close closes rest) := by
  intro r final tail htail hsound hrun hdivides
  have hnext := hrest rest (Nat.le_refl _)
  rw [Tree.code_block, List.cons_append, List.append_assoc, List.cons_append] at hrun
  obtain ⟨r₁, rest₁, hstep, hrun₁⟩ := run_cons hrun
  rcases closes.kinds with ⟨hs, hc⟩ | ⟨hs, -⟩
  · cases loopStep_of_step hs hc hstep with
    | dead hzero => exact follows_dead hnext htail hsound hzero hrun₁ hdivides
    | kept => exact follows_kept hbody hnext closes htail hrun₁ hdivides
    | pattern _ verdict =>
      exact follows_pattern hnext htail hs (Verdict.patternOpcode_of_ofLoop verdict) hrun₁ hdivides
    | clear _ verdict finish =>
      obtain ⟨i, single, counts⟩ := Verdict.single_of_clear verdict
      exact follows_clear hrest htail hs single counts finish hrun₁ hdivides
    | multiply _ verdict finish =>
      exact follows_multiply closes hrest htail hs (Verdict.multiplies_of_ofLoop verdict) finish
        hrun₁ hdivides
  · rw [step_of_not_loop (by simp [hs])] at hstep
    cases hstep
    exact follows_kept hbody hnext closes htail hrun₁ hdivides

end Block

/-! ## 5. Whole passes -/

/-- The flattener follows the rules on every tree. The induction is on the
length of the stream, because a fold takes in the instruction behind a loop. -/
theorem follows_all (target : Target) (divides : Prop) (t : Tree) : Follows target divides t := by
  induction hlength : t.code.length using Nat.strongRecOn generalizing t with
  | ind length ih =>
    subst hlength
    cases t with
    | done => exact follows_done
    | step i plain rest => exact follows_step (ih _ (by simp) rest rfl)
    | block start body close closes rest =>
      have hsize : (Tree.block start body close closes rest).code.length =
          body.code.length + (rest.code.length + 1) + 1 := by
        rw [Tree.code_block, List.length_cons, List.length_append, List.length_cons]
      refine follows_block (ih _ ?_ body rfl) fun u hu => ih _ ?_ u rfl
      · omega
      · omega

end Flattener

/-- **The pass follows the rules of flattening.** If it counts a division, the
rules may divide. -/
theorem Stream.flattens_of_flattenWithStats {target : Target} {t : Tree}
    {code : List Instruction} {stats : LoopStats}
    (h : flattenWithStats target t.code = .ok (code, stats)) :
    ∃ t', t.Flattens (0 < stats.divisions) false t' ∧ t'.code = code := by
  obtain ⟨final, hrun, h⟩ := bind_eq_ok_iff.1 h
  cases h
  have hrun' : Flattener.run target {} (t.code ++ []) = .ok final := by rwa [List.append_nil]
  obtain ⟨r', t', hend, -, houtput, hflat⟩ := Flattener.follows_all target _ t {} final []
    (by simp [Flattener.Ended]) (by simp [Flattener.Sound]) hrun' id
  rw [Flattener.run] at hend
  cases hend
  exact ⟨t', hflat, houtput.symm⟩

end TapeCompiler
