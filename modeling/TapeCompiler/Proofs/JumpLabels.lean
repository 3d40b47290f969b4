/-
TapeCompiler.Proofs.JumpLabels — the jump table of a well-formed stream.

The table knows labels only, the stream's structure is in the nesting of
its brackets. `Tree.Linked` says that the table agrees with the nesting:
the label of each block leads from one of its brackets to the other. Where
labels are not repeated the walk over the stream makes such a table and
has nothing to remark on (`JumpTable.linked_ofStream`).

The induction is on the tree, with the table that was made so far. It
carries two facts: the labels of the tree are still free when the walk
comes to it, and the walk leaves the entries of all other labels alone.

`Stream.partner?` finds the partner of a bracket by counting, without a
look at any label. `Tree.Linked.leads` says that the table of labels leads
to that partner.
-/
import TapeCompiler.Jumps
import TapeCompiler.Proofs.Blocks
import Mathlib.Data.List.Nodup

namespace TapeCompiler

/-! ## 1. Linked trees -/

namespace Tree

/-- The table leads from bracket to bracket, if the stream of the tree
starts at `index`. -/
def Linked (jumps : JumpTable) : Nat → Tree → Prop
  | _, done => True
  | index, step _ _ rest => rest.Linked jumps (index + 1)
  | index, block start body _ _ rest =>
    jumps.stop? start.value = some (index + 1 + body.code.length) ∧
      (start.opcode = .loopStart → jumps.start? start.value = some index) ∧
      body.Linked jumps (index + 1) ∧
      rest.Linked jumps (index + 1 + body.code.length + 1)

/-- Only the entries of the tree's own labels matter. -/
theorem Linked.congr {jumps jumps' : JumpTable} {t : Tree} {index : Nat}
    (h : t.Linked jumps index)
    (heq : ∀ label ∈ Stream.labels t.code, jumps'[label]? = jumps[label]?) :
    t.Linked jumps' index := by
  induction t generalizing index with
  | done => trivial
  | step i plain rest ih =>
    rw [labels_step] at heq
    exact ih h heq
  | block start body close closes rest ihb ihr =>
    obtain ⟨hstop, hstart, hbody, hrest⟩ := h
    rw [labels_block] at heq
    have hown : jumps'[start.value]? = jumps[start.value]? := heq _ (by simp)
    refine ⟨?_, ?_, ihb hbody ?_, ihr hrest ?_⟩
    · rwa [JumpTable.stop?, hown]
    · rwa [JumpTable.start?, hown]
    · exact fun label hl => heq label (by simp [hl])
    · exact fun label hl => heq label (by simp [hl])

end Tree

/-! ## 2. The walk -/

namespace JumpTable

theorem walk_append (table : JumpTable) (warnings : Array Warning) (index : Nat)
    (code code' : List Instruction) :
    walk table warnings index (code ++ code') =
      walk (walk table warnings index code).1 (walk table warnings index code).2
        (index + code.length) code' := by
  induction code generalizing table warnings index with
  | nil => rfl
  | cons i code ih =>
    simp only [List.cons_append, walk, ih, List.length_cons]
    congr 1
    omega

theorem enter_plain {i : Instruction} (plain : i.Plain) (table : JumpTable)
    (warnings : Array Warning) (index : Nat) :
    table.enter warnings index i = (table, warnings) := by
  obtain ⟨hopen, hclose⟩ := plain
  unfold enter
  cases hop : i.opcode <;> simp_all [Opcode.opensBlock, Opcode.closesBlock]

/-- What the walk makes of one tree. -/
structure Walked (table table' : JumpTable) (index : Nat) (t : Tree) : Prop where
  others : ∀ label, label ∉ Stream.labels t.code → table'[label]? = table[label]?
  linked : t.Linked table' index

/-- An opening bracket touches the entry of its own label at most. -/
theorem enter_start {start close : Instruction} (closes : close.Closes start) (table : JumpTable)
    (warnings : Array Warning) (index : Nat) :
    ∃ table', table.enter warnings index start = (table', warnings) ∧
      (∀ label, label ≠ start.value → table'[label]? = table[label]?) ∧
      (start.opcode = .loopStart → (table'.getD start.value {}).start = some index) ∧
      (start.opcode = .guard → table'[start.value]? = table[start.value]?) := by
  rcases closes.kinds with ⟨hs, -⟩ | ⟨hs, -⟩
  · refine ⟨table.insert start.value { table.getD start.value {} with start := some index },
      by simp [enter, hs], fun label hl => ?_, fun _ => by simp, fun hg => by simp [hs] at hg⟩
    rw [Std.HashMap.getElem?_insert, if_neg (by simpa using hl.symm)]
  · exact ⟨table, by simp [enter, hs], fun _ _ => rfl, fun hl => by simp [hs] at hl, fun _ => rfl⟩

/-- A closing bracket completes the entry of its label, if its partner has
been there before it. -/
theorem enter_close {start close : Instruction} (closes : close.Closes start) (table : JumpTable)
    (warnings : Array Warning) (index stop : Nat)
    (hloop : start.opcode = .loopStart → (table.getD start.value {}).start = some index)
    (hguard : start.opcode = .guard → table[start.value]? = none) :
    ∃ table', table.enter warnings stop close = (table', warnings) ∧
      (∀ label, label ≠ start.value → table'[label]? = table[label]?) ∧
      table'.stop? start.value = some stop ∧
      (start.opcode = .loopStart → table'.start? start.value = some index) := by
  have hvalue : close.value = start.value := closes.2.symm
  rcases closes.kinds with ⟨hs, hc⟩ | ⟨hs, hc⟩
  · refine ⟨table.insert start.value ⟨some index, some stop⟩, ?_, fun label hl => ?_, ?_, ?_⟩
    · simp [enter, hc, hvalue, hloop hs]
    · rw [Std.HashMap.getElem?_insert, if_neg (by simpa using hl.symm)]
    · simp [stop?]
    · simp [start?]
  · refine ⟨table.insertIfNew start.value ⟨some stop, some stop⟩, ?_, fun label hl => ?_, ?_, ?_⟩
    · simp [enter, hc, hvalue]
    · rw [Std.HashMap.getElem?_insertIfNew, if_neg (by simpa using fun h => absurd h.symm hl)]
    · have habsent : start.value ∉ table := by simpa using hguard hs
      rw [stop?, Std.HashMap.getElem?_insertIfNew]
      simp [habsent]
    · intro hl
      simp [hs] at hl

/-- The walk over a tree whose labels are new links the tree, and leaves all
other entries and the remarks as they are. -/
theorem walk_code (t : Tree) (table : JumpTable) (warnings : Array Warning) (index : Nat)
    (hnew : ∀ label ∈ Stream.labels t.code, table[label]? = none)
    (hnodup : (Stream.labels t.code).Nodup) :
    ∃ table', walk table warnings index t.code = (table', warnings) ∧
      Walked table table' index t := by
  induction t generalizing table index with
  | done => exact ⟨table, rfl, fun _ _ => rfl, trivial⟩
  | step i plain rest ih =>
    rw [Tree.labels_step] at hnew hnodup
    obtain ⟨table', hwalk, hothers, hlinked⟩ := ih table (index + 1) hnew hnodup
    refine ⟨table', ?_, ?_, hlinked⟩
    · simpa [walk, enter_plain plain] using hwalk
    · rwa [Tree.labels_step]
  | block start body close closes rest ihb ihr =>
    rw [Tree.labels_block] at hnew hnodup
    obtain ⟨hown, hboth⟩ := List.nodup_cons.1 hnodup
    obtain ⟨hnodupb, hnodupr, hdisjoint⟩ := List.nodup_append.1 hboth
    have hownb : start.value ∉ Stream.labels body.code := fun h => hown (by simp [h])
    have hownr : start.value ∉ Stream.labels rest.code := fun h => hown (by simp [h])
    have hne {label : Int} (hl : label ∈ Stream.labels body.code ++ Stream.labels rest.code) :
        label ≠ start.value := fun h => hown (h ▸ hl)
    -- the opening bracket
    obtain ⟨table₁, he₁, hothers₁, hloop₁, hguard₁⟩ := enter_start closes table warnings index
    -- the body
    have hnew₁ : ∀ label ∈ Stream.labels body.code, table₁[label]? = none := fun label hl => by
      rw [hothers₁ label (hne (by simp [hl]))]
      exact hnew label (by simp [hl])
    obtain ⟨table₂, hw₂, hothers₂, hlinked₂⟩ := ihb table₁ (index + 1) hnew₁ hnodupb
    -- the closing bracket
    have hentry : table₂[start.value]? = table₁[start.value]? := hothers₂ _ hownb
    have hloop₂ : start.opcode = .loopStart → (table₂.getD start.value {}).start = some index := by
      intro hs
      rw [Std.HashMap.getD_eq_getD_getElem?, hentry, ← Std.HashMap.getD_eq_getD_getElem?]
      exact hloop₁ hs
    have hguard₂ : start.opcode = .guard → table₂[start.value]? = none := fun hs => by
      rw [hentry, hguard₁ hs]
      exact hnew _ (by simp)
    obtain ⟨table₃, he₃, hothers₃, hstop₃, hstart₃⟩ :=
      enter_close closes table₂ warnings index (index + 1 + body.code.length) hloop₂ hguard₂
    -- what follows
    have hnew₃ : ∀ label ∈ Stream.labels rest.code, table₃[label]? = none := fun label hl => by
      rw [hothers₃ label (hne (by simp [hl])),
        hothers₂ label (fun hb => hdisjoint label hb label hl rfl),
        hothers₁ label (hne (by simp [hl]))]
      exact hnew label (by simp [hl])
    obtain ⟨table₄, hw₄, hothers₄, hlinked₄⟩ :=
      ihr table₃ (index + 1 + body.code.length + 1) hnew₃ hnodupr
    have hentry₄ : table₄[start.value]? = table₃[start.value]? := hothers₄ _ hownr
    refine ⟨table₄, ?_, fun label hl => ?_, ?_, ?_, ?_, hlinked₄⟩
    · simp only [Tree.code_block, walk, he₁, walk_append, hw₂, he₃, hw₄]
    · simp only [Tree.labels_block, List.mem_cons, List.mem_append, not_or] at hl
      obtain ⟨hlown, hlb, hlr⟩ := hl
      rw [hothers₄ label hlr, hothers₃ label hlown, hothers₂ label hlb, hothers₁ label hlown]
    · rwa [stop?, hentry₄]
    · rwa [start?, hentry₄]
    · refine hlinked₂.congr fun label hl => ?_
      rw [hothers₄ label (fun hr => hdisjoint label hl label hr rfl),
        hothers₃ label (hne (by simp [hl]))]

/-- **The table of a stream without repeated labels** links its brackets as
they are nested, and there is nothing to remark on. -/
theorem linked_ofStream {t : Tree} (h : (Stream.labels t.code).Nodup) :
    ∃ table, ofStream t.code = (table, #[]) ∧ t.Linked table 0 := by
  obtain ⟨table, hwalk, -, hlinked⟩ :=
    walk_code t {} #[] 0 (fun label _ => by simp) h
  exact ⟨table, hwalk, hlinked⟩

end JumpTable

/-! ## 3. Partners by position -/

namespace Stream

/-- How far it is to the bracket that closes `depth` inner blocks and then
the one around them. -/
def closerAt? : Nat → List Instruction → Option Nat
  | _, [] => none
  | depth, i :: rest =>
    if i.opcode.opensBlock then (closerAt? (depth + 1) rest).map (1 + ·)
    else if i.opcode.closesBlock then
      match depth with
      | 0 => some 0
      | depth + 1 => (closerAt? depth rest).map (1 + ·)
    else (closerAt? depth rest).map (1 + ·)

/-- The index of the bracket that closes the block opened at `index`. -/
def partner? (code : List Instruction) (index : Nat) : Option Nat :=
  (closerAt? 0 (code.drop (index + 1))).map (index + 1 + ·)

/-- Whole blocks are passed in the search for a partner. -/
theorem closerAt?_code (t : Tree) (depth : Nat) (more : List Instruction) :
    closerAt? depth (t.code ++ more) = (closerAt? depth more).map (t.code.length + ·) := by
  induction t generalizing depth more with
  | done => simp
  | step i plain rest ih =>
    simp only [Tree.code_step, List.cons_append, closerAt?, plain.1, plain.2, ih, Option.map_map,
      Bool.false_eq_true, if_false, List.length_cons]
    congr 1
    funext n
    simp only [Function.comp]
    omega
  | block start body close closes rest ihb ihr =>
    simp only [Tree.code_block, List.cons_append, List.append_assoc, closerAt?, closes.opens,
      closes.not_opens, closes.closes, ihb, ihr, Option.map_map, Bool.false_eq_true, if_true,
      if_false, List.length_cons, List.length_append]
    congr 1
    funext n
    simp only [Function.comp]
    omega

/-- The table leads from the bracket `start` at `index` to its partner, and
from the end of a loop back to its start. -/
def Leads (jumps : JumpTable) (code : List Instruction) (index : Nat) (start : Instruction) :
    Prop :=
  ∃ stop close, partner? code index = some stop ∧ code[stop]? = some close ∧
    close.Closes start ∧ jumps.stop? start.value = some stop ∧
    (start.opcode = .loopStart → jumps.start? start.value = some index)

end Stream

namespace Tree

/-- Every opening bracket of a linked tree is led to its partner, wherever in
a stream the tree stands. -/
theorem Linked.leads {jumps : JumpTable} {t : Tree} {before : List Instruction}
    (h : t.Linked jumps before.length) (more : List Instruction) {k : Nat} {start : Instruction}
    (hstart : t.code[k]? = some start) (hopens : start.opcode.opensBlock = true) :
    Stream.Leads jumps (before ++ t.code ++ more) (before.length + k) start := by
  induction t generalizing before more k with
  | done => simp at hstart
  | step i plain rest ih =>
    cases k with
    | zero =>
      obtain rfl : i = start := by simpa using hstart
      exact absurd hopens (by simp [plain.1])
    | succ k =>
      have hrest : rest.Linked jumps (before ++ [i]).length := by simpa [Linked] using h
      have hleads := ih hrest more (by simpa using hstart)
      simpa [Nat.add_assoc, Nat.add_comm 1] using hleads
  | block first body close closes rest ihb ihr =>
    obtain ⟨hstop, hback, hbody, hrest⟩ := h
    cases k with
    | zero =>
      obtain rfl : first = start := by simpa using hstart
      refine ⟨_, close, ?_, ?_, closes, hstop, hback⟩
      · have hdrop : (before ++ (block first body close closes rest).code ++ more).drop
            (before.length + 0 + 1) = body.code ++ close :: (rest.code ++ more) := by
          simp [List.drop_append]
        rw [Stream.partner?, hdrop, Stream.closerAt?_code]
        simp [Stream.closerAt?, closes.not_opens, closes.closes]
      · rw [code_block, List.append_assoc, List.getElem?_append_right (by omega)]
        have hindex : before.length + 1 + body.code.length - before.length =
            body.code.length + 1 := by omega
        simp [hindex]
    | succ k =>
      by_cases hk : k < body.code.length
      · have hin : body.code[k]? = some start := by
          simpa [List.getElem?_append_left hk] using hstart
        have hlength : (before ++ [first]).length = before.length + 1 := by simp
        have hleads := ihb (hlength ▸ hbody) (close :: (rest.code ++ more)) hin
        simpa [Nat.add_assoc, Nat.add_comm 1] using hleads
      · obtain ⟨j, rfl⟩ : ∃ j, k = body.code.length + j := ⟨k - body.code.length, by omega⟩
        cases j with
        | zero =>
          obtain rfl : close = start := by simpa using hstart
          exact absurd hopens (by simp [closes.not_opens])
        | succ j =>
          have hin : rest.code[j]? = some start := by
            simpa [List.getElem?_append_right] using hstart
          have hlength : (before ++ first :: (body.code ++ [close])).length =
              before.length + 1 + body.code.length + 1 := by
            simp
            omega
          have hleads := ihr (hlength ▸ hrest) more hin
          simpa [Nat.add_assoc, Nat.add_comm, Nat.add_left_comm] using hleads

/-- The end of a loop in a linked tree is led back to the start of it. -/
theorem Linked.back {jumps : JumpTable} {t : Tree} {index : Nat} (h : t.Linked jumps index)
    {close : Instruction} (hclose : close ∈ t.code) (hend : close.opcode = .loopEnd) :
    ∃ k start, t.code[k]? = some start ∧ close.Closes start ∧
      jumps.start? close.value = some (index + k) := by
  induction t generalizing index with
  | done => simp at hclose
  | step i plain rest ih =>
    rcases List.mem_cons.1 hclose with rfl | hclose
    · simp [Instruction.Plain, hend, Opcode.closesBlock] at plain
    · obtain ⟨k, start, hstart, hcloses, hback⟩ := ih h hclose
      exact ⟨k + 1, start, hstart, hcloses, by rw [hback]; congr 1; omega⟩
  | block first body last closes rest ihb ihr =>
    obtain ⟨-, hfirst, hbody, hrest⟩ := h
    simp only [code_block, List.mem_cons, List.mem_append] at hclose
    rcases hclose with rfl | hclose | rfl | hclose
    · have := closes.opens
      simp [hend, Opcode.opensBlock] at this
    · obtain ⟨k, start, hstart, hcloses, hback⟩ := ihb hbody hclose
      have hk := (List.getElem?_eq_some_iff.1 hstart).1
      refine ⟨k + 1, start, ?_, hcloses, by rw [hback]; congr 1; omega⟩
      rw [code_block, List.getElem?_cons_succ, List.getElem?_append_left hk, hstart]
    · rcases closes.kinds with ⟨hloop, -⟩ | ⟨-, hlabel⟩
      · exact ⟨0, first, rfl, closes, closes.2 ▸ hfirst hloop⟩
      · simp [hend] at hlabel
    · obtain ⟨k, start, hstart, hcloses, hback⟩ := ihr hrest hclose
      refine ⟨body.code.length + 1 + k + 1, start, ?_, hcloses, by rw [hback]; congr 1; omega⟩
      rw [code_block, List.getElem?_cons_succ, List.getElem?_append_right (by omega)]
      simpa [show body.code.length + 1 + k - body.code.length = k + 1 by omega] using hstart

/-- No bracket of a linked tree asks the table in vain. -/
theorem Linked.found {jumps : JumpTable} {t : Tree} {index : Nat} (h : t.Linked jumps index)
    {i : Instruction} (hi : i ∈ t.code) :
    (i.opcode.opensBlock = true → ∃ stop, jumps.stop? i.value = some stop) ∧
      (i.opcode = .loopEnd → ∃ start, jumps.start? i.value = some start) := by
  induction t generalizing index with
  | done => simp at hi
  | step j plain rest ih =>
    rcases List.mem_cons.1 hi with rfl | hi
    · exact ⟨fun hopens => by simp [plain.1] at hopens,
        fun hend => by simp [Instruction.Plain, hend, Opcode.closesBlock] at plain⟩
    · exact ih h hi
  | block start body close closes rest ihb ihr =>
    obtain ⟨hstop, hstart, hbody, hrest⟩ := h
    simp only [code_block, List.mem_cons, List.mem_append] at hi
    rcases hi with rfl | hi | rfl | hi
    · refine ⟨fun _ => ⟨_, hstop⟩, fun hend => ?_⟩
      have := closes.opens
      simp [hend, Opcode.opensBlock] at this
    · exact ihb hbody hi
    · refine ⟨fun hopens => by simp [closes.not_opens] at hopens, fun hend => ?_⟩
      rcases closes.kinds with ⟨hloop, -⟩ | ⟨-, hlabel⟩
      · exact ⟨index, closes.2 ▸ hstart hloop⟩
      · simp [hend] at hlabel
    · exact ihr hrest hi

end Tree

end TapeCompiler
