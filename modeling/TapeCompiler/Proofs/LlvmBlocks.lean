/-
TapeCompiler.Proofs.LlvmBlocks — the generated function is made of blocks.

`Llvm.mainLines` takes the lines of the function out of a text, comments and
blank lines aside, and `Llvm.WellFormedLines` says what LLVM asks of them:
temporaries are numbered in the order in which they are assigned, a use comes
behind the assignment and in the same block, a block ends in its only branch
or return, and labels that are named are defined once.

The first three hold of every stream that is written at all, because they
hold of the lines of each instruction (`Llvm.Stretch`) and go over to
stretches in a row. Labels are kept apart by those of the stream, whose blocks
are properly nested (`Llvm.Resolved`).
-/
import TapeCompiler.Proofs.LlvmText
import TapeCompiler.Proofs.Pipeline
import Std.Data.String.ToInt

namespace TapeCompiler

namespace Llvm

/-! ## 1. Lines of the function -/

/-- The line that opens the function. -/
def mainOpen : String := "define i32 @main() #0 !dbg !12 \x7b\n"

/-- The line that closes the function. -/
def mainClose : String := "\x7d\n"

/-- The line is neither blank nor a comment. -/
def matters (line : List String) : Bool := line ≠ [] ∧ line.head? ≠ some ";"

/-- The lines of the function, as words, without blank lines and comments. -/
def mainLines (text : List String) : List (List String) :=
  (((text.dropWhile (· ≠ mainOpen)).tail.takeWhile (· ≠ mainClose)).map words).filter matters

/-- Each line uses temporaries in `live`, or assigned above it with no label
in between. -/
def ReadsAssigned (live : List String) : List (List String) → Prop
  | [] => True
  | line :: rest =>
    usedIn line ⊆ live ∧
      ReadsAssigned (if (labelIn? line).isSome then [] else (assignedIn? line).toList ++ live) rest

/-- A line ends a block exactly if a label follows, and then it is a branch. -/
def Follows (line next : List String) : Prop :=
  (endsBlock line = true ↔ (labelIn? next).isSome = true) ∧
    ((labelIn? next).isSome = true → branches line = true)

/-- What LLVM asks of the lines of a function. -/
structure WellFormedLines (lines : List (List String)) : Prop where
  /-- The temporaries that are assigned, in the order of the lines. -/
  assigned : ∃ n, lines.filterMap assignedIn? = (List.range' 1 n).map Temp.render
  used : ReadsAssigned [] lines
  first : lines.head? = some ["entry:"]
  blocks : lines.IsChain Follows
  last : ∃ line, lines.getLast? = some line ∧ endsBlock line = true
  labels : (lines.filterMap labelIn?).Nodup
  targets : ∀ line ∈ lines, ∀ name ∈ targetsIn line, name ∈ lines.filterMap labelIn?

/-! ## 2. Stretches -/

/-- Lines from the inside of a block to the inside of a block, behind `t`
temporaries and up to `t'`. -/
structure Stretch (t t' : Nat) (lines : List (List String)) : Prop where
  le : t ≤ t'
  assigned : lines.filterMap assignedIn? = (List.range' (t + 1) (t' - t)).map Temp.render
  used : ReadsAssigned [] lines
  blocks : lines.IsChain Follows
  first : ∀ line ∈ lines.head?, labelIn? line = none
  last : ∀ line ∈ lines.getLast?, endsBlock line = false

theorem ReadsAssigned.mono {live live' : List String} {lines : List (List String)}
    (h : ReadsAssigned live lines) (hle : live ⊆ live') : ReadsAssigned live' lines := by
  induction lines generalizing live live' with
  | nil => trivial
  | cons line rest ih =>
    refine ⟨fun name hname => hle (h.1 hname), ?_⟩
    have hrest := h.2
    split
    · rename_i hlabel
      rwa [if_pos hlabel] at hrest
    · rename_i hlabel
      rw [if_neg hlabel] at hrest
      refine ih hrest fun name hname => ?_
      rw [List.mem_append] at hname ⊢
      exact hname.imp_right fun hmem => hle hmem

theorem ReadsAssigned.append {live : List String} {lines lines' : List (List String)}
    (h : ReadsAssigned live lines) (h' : ReadsAssigned [] lines') :
    ReadsAssigned live (lines ++ lines') := by
  induction lines generalizing live with
  | nil => exact h'.mono (List.nil_subset _)
  | cons line rest ih => exact ⟨h.1, ih h.2⟩

/-- Inside a block, lines follow each other. -/
theorem follows_inside {line next : List String} (hline : endsBlock line = false)
    (hnext : labelIn? next = none) : Follows line next := by
  simp [Follows, hline, hnext]

/-- Behind a branch there is a label. -/
theorem follows_branch {line next : List String} (hline : branches line = true)
    (hnext : (labelIn? next).isSome = true) : Follows line next := by
  simp [Follows, endsBlock, hline, hnext]

theorem Stretch.nil (t : Nat) : Stretch t t [] :=
  ⟨Nat.le_refl t, by simp, trivial, .nil, by simp, by simp⟩

theorem Stretch.append {t t₁ t₂ : Nat} {lines lines' : List (List String)}
    (h : Stretch t t₁ lines) (h' : Stretch t₁ t₂ lines') : Stretch t t₂ (lines ++ lines') := by
  have hle := h.le
  have hle' := h'.le
  refine ⟨Nat.le_trans hle hle', ?_, h.used.append h'.used, ?_, ?_, ?_⟩
  · have hlast : t₁ + 1 = t + 1 + 1 * (t₁ - t) := by omega
    have htotal : t₂ - t = (t₁ - t) + (t₂ - t₁) := by omega
    rw [List.filterMap_append, h.assigned, h'.assigned, ← List.map_append, hlast,
      List.range'_append, htotal]
  · refine List.isChain_append.2 ⟨h.blocks, h'.blocks, fun line hline next hnext => ?_⟩
    exact follows_inside (h.last line hline) (h'.first next hnext)
  · intro line hline
    rw [List.head?_append] at hline
    cases hhead : lines.head? with
    | none => exact h'.first line (by simpa [hhead] using hline)
    | some head => exact h.first line (by simpa [hhead] using hline)
  · intro line hline
    rw [List.getLast?_append] at hline
    cases hlast : lines'.getLast? with
    | none => exact h.last line (by simpa [hlast] using hline)
    | some last => exact h'.last line (by simpa [hlast] using hline)

section Rows

variable (w : Width) (location : NodeId) {t : Nat}

theorem filterMap_assignedIn?_ops (ops : List Op) :
    (ops.map (Op.line w · location)).filterMap assignedIn? =
      (ops.filterMap Op.assigned?).map Temp.render := by
  rw [List.filterMap_map, List.map_filterMap]
  congr 1
  funext op
  exact assignedIn?_op w op location

theorem readsAssigned_ops {live : List Temp} {ops : List Op} (h : ReadsLive live ops) :
    ReadsAssigned (live.map Temp.render) (ops.map (Op.line w · location)) := by
  induction ops generalizing live with
  | nil => trivial
  | cons op rest ih =>
    refine ⟨?_, ?_⟩
    · rw [usedIn_op]
      exact List.map_subset _ h.1
    · have hrest := ih h.2
      rw [labelIn?_op, assignedIn?_op]
      cases hassigned : op.assigned? <;> simpa [hassigned] using hrest

theorem isChain_ops {ops : List Op} (h : ∀ op ∈ ops, op.endsBlock = false) :
    (ops.map (Op.line w · location)).IsChain Follows := by
  induction ops with
  | nil => exact .nil
  | cons op rest ih =>
    rw [List.forall_mem_cons] at h
    refine List.isChain_cons.2 ⟨fun next hnext => ?_, ih h.2⟩
    rw [List.head?_map, Option.mem_map] at hnext
    obtain ⟨op', -, rfl⟩ := hnext
    exact follows_inside ((endsBlock_op w op location).trans h.1) (labelIn?_op w op' location)

/-- A row of operations that stay in one block. -/
theorem stretch_row {code : List Op × Temp} (h : Numbered t code)
    (hinside : ∀ op ∈ code.1, op.endsBlock = false) :
    Stretch t code.2 (code.1.map (Op.line w · location)) := by
  refine ⟨h.le, ?_, readsAssigned_ops w location h.reads, isChain_ops w location hinside, ?_, ?_⟩
  · rw [filterMap_assignedIn?_ops, h.assigned]
  · intro line hline
    rw [List.head?_map, Option.mem_map] at hline
    obtain ⟨op, -, rfl⟩ := hline
    exact labelIn?_op w op location
  · intro line hline
    rw [List.getLast?_map, Option.mem_map] at hline
    obtain ⟨op, hop, rfl⟩ := hline
    exact (endsBlock_op w op location).trans (hinside op (List.mem_of_mem_getLast? hop))

/-- The label that a block starts with. -/
theorem readsAssigned_label (l : Label) : ReadsAssigned [] [l.line] :=
  ⟨by rw [usedIn_label]; exact List.nil_subset _, trivial⟩

/-- A branch to one label, and the label of the next block. -/
theorem stretch_jump {op : Op} {target : Label} (htargets : op.targets = [target])
    (hused : op.used = []) (hassigned : op.assigned? = none) (l : Label) :
    Stretch t t [op.line w location, l.line] := by
  have hbranch : branches (op.line w location) = true := by rw [branches_op, htargets]; rfl
  refine ⟨Nat.le_refl t, ?_, ?_, ?_, ?_, ?_⟩
  · simp [assignedIn?_op, hassigned, assignedIn?_label]
  · refine ⟨by rw [usedIn_op, hused]; exact List.nil_subset _, ?_⟩
    rw [labelIn?_op, assignedIn?_op, hassigned]
    exact readsAssigned_label l
  · refine List.isChain_pair.2 (follows_branch hbranch ?_)
    rw [labelIn?_label]
    rfl
  · simp [labelIn?_op]
  · simp [endsBlock_label]

/-- A test of the current cell, and the label of the next block. -/
theorem stretch_test (nonzero zero l : Label) :
    Stretch t (t + 3) ((branchOps t nonzero zero).1.map (Op.line w · location) ++ [l.line]) := by
  have hrow := numbered_branch t nonzero zero
  refine ⟨by omega, ?_, (readsAssigned_ops w location hrow.reads).append (readsAssigned_label l),
    ?_, ?_, ?_⟩
  · rw [List.filterMap_append, filterMap_assignedIn?_ops, hrow.assigned]
    simp [assignedIn?_label, branchOps]
  · simp [branchOps, Follows, endsBlock_op, labelIn?_op, labelIn?_label, branches_op,
      Op.endsBlock, Op.targets]
  · simp [branchOps, labelIn?_op]
  · simp [endsBlock_label]

end Rows

/-! ## 3. Steps and runs -/

/-- The words of a line of the function, unless it is blank or a comment. -/
def Line.body? (w : Width) : Line → Option (List String)
  | .label l => some l.line
  | .allocate => some ["%p", "=", "alloca", "ptr", "align", "8"]
  | .op code location => some (code.line w location)
  | _ => none

/-- The words of the lines of the function, blank lines and comments aside. -/
def bodyOf (w : Width) (lines : List Line) : List (List String) := lines.filterMap (Line.body? w)

section Body

variable (w : Width)

@[simp] theorem bodyOf_nil : bodyOf w [] = [] := rfl

@[simp] theorem bodyOf_append (lines lines' : List Line) :
    bodyOf w (lines ++ lines') = bodyOf w lines ++ bodyOf w lines' :=
  List.filterMap_append

@[simp] theorem bodyOf_op (op : Op) (location : NodeId) (lines : List Line) :
    bodyOf w (.op op location :: lines) = op.line w location :: bodyOf w lines := rfl

@[simp] theorem bodyOf_labelLines (l : Label) : bodyOf w (labelLines l) = [l.line] := rfl

@[simp] theorem bodyOf_ops (ops : List Op) (location : NodeId) :
    bodyOf w (ops.map (.op · location)) = ops.map (Op.line w · location) := by
  induction ops with
  | nil => rfl
  | cons op rest ih => rw [List.map_cons, bodyOf_op, ih, List.map_cons]

@[simp] theorem bodyOf_comment (options : EmitOptions) (i : Instruction) :
    bodyOf w (comment options i) = [] := by
  unfold comment
  split <;> rfl

/-- What a step writes stays inside a block. -/
theorem stretch_step {s s' : State} {i : Instruction} {lines : List Line} (h : Step s i lines s') :
    Stretch s.temps s'.temps (bodyOf w lines) := by
  cases h with
  | plain _ hcode =>
    rw [bodyOf_ops]
    exact stretch_row w s.nextNode hcode.toNumbered fun op hop => (hcode.inside op hop).1
  | loopStart =>
    have hlines : bodyOf w (openLoop s i).1 =
        [Op.line w (.branch (.loopHead i.value)) s.nextNode, Label.line (.loopHead i.value)] ++
          ((branchOps s.temps (.loopBody i.value) (.loopExit i.value)).1.map
            (Op.line w · s.nextNode) ++ [Label.line (.loopBody i.value)]) := rfl
    rw [hlines]
    exact (stretch_jump w s.nextNode rfl rfl rfl _).append (stretch_test w s.nextNode ..)
  | loopEnd _ hloops =>
    simp only [closeLoop, hloops]
    exact stretch_jump w _ rfl rfl rfl _
  | stray => exact .nil _
  | guard =>
    rw [bodyOf_append, bodyOf_ops]
    exact stretch_test w s.nextNode ..
  | label => exact stretch_jump w s.nextNode rfl rfl rfl _

end Body

/-- So does what the steps of a stream write. -/
theorem stretch_piecesOf {options : EmitOptions} {s : State} {code : List Instruction}
    (h : (emitter options).Passes s code) :
    Stretch s.temps ((emitter options).stateAfter s code).temps
      (bodyOf options.width ((emitter options).piecesOf s code)) := by
  induction code generalizing s with
  | nil => exact .nil _
  | cons i rest ih =>
    obtain ⟨hi, hrest⟩ := h
    rw [result_step_emitter] at hi
    rw [Emitter.piecesOf, Emitter.stateAfter_cons, pieces_step_emitter, bodyOf_append,
      bodyOf_append, bodyOf_comment, List.nil_append]
    exact (stretch_step options.width (step_of_ok hi)).append (ih hrest)

/-! ## 4. Labels -/

/-- Different labels have different names: the first letters tell their kinds
apart, or else the last ones do. -/
theorem Label.name_injective {l l' : Label} (h : l.name = l'.name) : l = l' := by
  have hfront := congrArg String.toList h
  have hback := congrArg List.reverse hfront
  cases l <;> cases l' <;>
    simp [-Nat.toList_repr, name, toString_text, String.toList_inj, Int.repr_inj] at hfront hback ⊢
  all_goals exact hfront

/-- The label of the stream that a label belongs to. -/
def Label.number? : Label → Option Int
  | .entry => none
  | .loopHead n | .loopBody n | .loopExit n | .guardBody n | .guardEnd n => some n

/-- The label that a line is. -/
def Line.label? : Line → Option Label
  | .label l => some l
  | _ => none

/-- The labels that a line names. -/
def Line.targets : Line → List Label
  | .op code _ => code.targets
  | _ => []

/-- The labels among some lines. -/
def defined (lines : List Line) : List Label := lines.filterMap Line.label?

/-- The labels that some lines name. -/
def named (lines : List Line) : List Label := lines.flatMap Line.targets

/-- Labels that are named are defined once, and belong to these labels of the
stream. -/
structure Resolved (numbers : List Int) (lines : List Line) : Prop where
  nodup : (defined lines).Nodup
  numbered : ∀ l ∈ defined lines, ∃ n ∈ numbers, l.number? = some n
  covered : named lines ⊆ defined lines

section Labels

@[simp] theorem defined_append (lines lines' : List Line) :
    defined (lines ++ lines') = defined lines ++ defined lines' := List.filterMap_append

@[simp] theorem named_append (lines lines' : List Line) :
    named (lines ++ lines') = named lines ++ named lines' := List.flatMap_append

@[simp] theorem defined_op (op : Op) (location : NodeId) (lines : List Line) :
    defined (.op op location :: lines) = defined lines := rfl

@[simp] theorem named_op (op : Op) (location : NodeId) (lines : List Line) :
    named (.op op location :: lines) = op.targets ++ named lines := rfl

@[simp] theorem defined_labelLines (l : Label) : defined (labelLines l) = [l] := rfl

@[simp] theorem named_labelLines (l : Label) : named (labelLines l) = [] := rfl

@[simp] theorem defined_comment (options : EmitOptions) (i : Instruction) :
    defined (comment options i) = [] := by
  unfold comment
  split <;> rfl

@[simp] theorem named_comment (options : EmitOptions) (i : Instruction) :
    named (comment options i) = [] := by
  unfold comment
  split <;> rfl

@[simp] theorem defined_ops (ops : List Op) (location : NodeId) :
    defined (ops.map (.op · location)) = [] := by
  simp [defined, Line.label?, List.filterMap_map, Function.comp_def]

@[simp] theorem named_ops (ops : List Op) (location : NodeId) :
    named (ops.map (.op · location)) = ops.flatMap Op.targets := by
  simp [named, Line.targets, List.flatMap_map]

variable {numbers numbers' : List Int} {lines lines' : List Line}

theorem Resolved.of_eq_nil (hdefined : defined lines = []) (hnamed : named lines = []) :
    Resolved [] lines := by
  refine ⟨?_, ?_, ?_⟩ <;> simp [hdefined, hnamed]

/-- Lines that belong to different labels. -/
theorem Resolved.append (h : Resolved numbers lines) (h' : Resolved numbers' lines')
    (hdisjoint : numbers.Disjoint numbers') : Resolved (numbers ++ numbers') (lines ++ lines') := by
  refine ⟨?_, ?_, ?_⟩
  · rw [defined_append]
    refine h.nodup.append h'.nodup fun l hl hl' => ?_
    obtain ⟨n, hn, hnumber⟩ := h.numbered l hl
    obtain ⟨n', hn', hnumber'⟩ := h'.numbered l hl'
    cases hnumber.symm.trans hnumber'
    exact hdisjoint hn hn'
  · rw [defined_append]
    intro l hl
    rw [List.mem_append] at hl
    rcases hl with hl | hl
    · obtain ⟨n, hn, hnumber⟩ := h.numbered l hl
      exact ⟨n, List.mem_append_left _ hn, hnumber⟩
    · obtain ⟨n, hn, hnumber⟩ := h'.numbered l hl
      exact ⟨n, List.mem_append_right _ hn, hnumber⟩
  · rw [defined_append, named_append]
    intro l hl
    rw [List.mem_append] at hl ⊢
    exact hl.imp (fun hl => h.covered hl) (fun hl => h'.covered hl)

/-- Lines between the two ends of a block, which bring in labels of their own. -/
theorem Resolved.enclose {n : Int} {opening closing : List Line} (h : Resolved numbers lines)
    (hn : n ∉ numbers) (hnodup : (defined (opening ++ closing)).Nodup)
    (hnumbered : ∀ l ∈ defined (opening ++ closing), l.number? = some n)
    (hnamed : named (opening ++ closing) ⊆ defined (opening ++ closing)) :
    Resolved (n :: numbers) (opening ++ (lines ++ closing)) := by
  have hperm : (defined (opening ++ (lines ++ closing))).Perm
      (defined (opening ++ closing) ++ defined lines) := by
    simp only [defined_append, List.append_assoc]
    exact (List.perm_append_comm).append_left _
  refine ⟨hperm.nodup_iff.2 (hnodup.append h.nodup fun l hl hl' => ?_), fun l hl => ?_,
    fun l hl => ?_⟩
  · obtain ⟨m, hm, hnumber⟩ := h.numbered l hl'
    cases (hnumbered l hl).symm.trans hnumber
    exact hn hm
  · rw [hperm.mem_iff, List.mem_append] at hl
    rcases hl with hl | hl
    · exact ⟨n, List.mem_cons_self .., hnumbered l hl⟩
    · obtain ⟨m, hm, hnumber⟩ := h.numbered l hl
      exact ⟨m, List.mem_cons_of_mem _ hm, hnumber⟩
  · rw [hperm.mem_iff, List.mem_append]
    simp only [named_append, List.mem_append] at hl
    rcases hl with hl | hl | hl
    · exact .inl (hnamed (by simp [hl]))
    · exact .inr (h.covered hl)
    · exact .inl (hnamed (by simp [hl]))

theorem defined_openLoop (s : State) (i : Instruction) :
    defined (openLoop s i).1 = [.loopHead i.value, .loopBody i.value] := rfl

theorem named_openLoop (s : State) (i : Instruction) :
    named (openLoop s i).1 = [.loopHead i.value, .loopBody i.value, .loopExit i.value] := rfl

theorem defined_closeLoop {s : State} {loop : LoopScope} {outer : List LoopScope}
    (h : s.loops = loop :: outer) (position : Option Position) :
    defined (closeLoop s position).1 = [.loopExit loop.label] := by
  simp [closeLoop, h]

theorem named_closeLoop {s : State} {loop : LoopScope} {outer : List LoopScope}
    (h : s.loops = loop :: outer) (position : Option Position) :
    named (closeLoop s position).1 = [.loopHead loop.label] := by
  simp [closeLoop, h, Op.targets]

theorem targets_of_inside {op : Op} (h : op.endsBlock = false) : op.targets = [] := by
  cases op <;> first | rfl | cases h

end Labels

section Trees

variable (options : EmitOptions)

theorem step_next (s : State) {i : Instruction} (h : Accepts i) :
    Step s i (step options.width s i).pieces ((emitter options).next s i) := by
  obtain ⟨s', hs'⟩ := exists_step options.width s h
  have hnext : (emitter options).next s i = s' :=
    Emitter.next_of_ok ((result_step_emitter s i).trans hs')
  rw [hnext]
  exact step_of_ok hs'

/-- The lines of an instruction that is no bracket, which names no label. -/
theorem resolved_plain (s : State) {i : Instruction} (plain : i.Plain) (haccepts : Accepts i) :
    ((emitter options).next s i).loops = s.loops ∧
      Resolved [] ((emitter options).step s i).pieces := by
  obtain ⟨code, hcode, hlines, hnext⟩ := (step_next options s haccepts).of_plain plain
  have htargets : code.1.flatMap Op.targets = [] :=
    List.flatMap_eq_nil_iff.2 fun op hop => targets_of_inside (hcode.inside op hop).1
  rw [hnext, pieces_step_emitter, hlines]
  refine ⟨rfl, .of_eq_nil ?_ ?_⟩
  · simp
  · simp [htargets]

/-- The two ends of a block, around lines that leave the open loops as they
are: their labels are those of the block. -/
theorem resolved_block (s s' : State) {start close : Instruction} (closes : close.Closes start)
    (hstart : Accepts start) (hclose : Accepts close)
    (hloops : s'.loops = ((emitter options).next s start).loops) {numbers : List Int}
    {lines : List Line} (hlines : Resolved numbers lines) (hnumber : start.value ∉ numbers) :
    ((emitter options).next s' close).loops = s.loops ∧
      Resolved (start.value :: numbers) (((emitter options).step s start).pieces ++
        (lines ++ ((emitter options).step s' close).pieces)) := by
  have hopening := step_next options s hstart
  have hclosing := step_next options s' hclose
  rw [pieces_step_emitter, pieces_step_emitter]
  rcases closes.kinds with ⟨hs, hc⟩ | ⟨hs, hc⟩
  · obtain ⟨hfront, hbody⟩ := hopening.of_loopStart hs
    obtain ⟨hback, hrest⟩ := hclosing.of_loopEnd hc
    have hopen : s'.loops =
        ⟨start.value, s.nextNode, (s.locate start.position).nextNode⟩ :: s.loops := by
      rw [hloops, hbody]
      rfl
    rw [hrest, hfront, hback]
    refine ⟨loops_closeLoop hopen _, hlines.enclose hnumber ?_ ?_ ?_⟩ <;>
      simp [defined_openLoop, named_openLoop, defined_closeLoop hopen, named_closeLoop hopen,
        Label.number?]
  · obtain ⟨hfront, hbody⟩ := hopening.of_guard hs
    obtain ⟨hback, hrest⟩ := hclosing.of_label hc
    rw [hbody] at hloops
    rw [hrest, hfront, hback, ← closes.2]
    refine ⟨hloops, hlines.enclose hnumber ?_ ?_ ?_⟩ <;>
      simp [branchOps, Op.targets, Label.number?]

/-- The labels of a stream that can be read as a tree. -/
theorem resolved_tree {t : Tree} (haccepts : ∀ i ∈ t.code, Accepts i)
    (hnodup : (Stream.labels t.code).Nodup) (s : State) :
    ((emitter options).stateAfter s t.code).loops = s.loops ∧
      Resolved (Stream.labels t.code) ((emitter options).piecesOf s t.code) := by
  induction t generalizing s with
  | done => exact ⟨rfl, .of_eq_nil rfl rfl⟩
  | step i plain rest ih =>
    rw [Tree.code_step, List.forall_mem_cons] at haccepts
    rw [Tree.labels_step] at hnodup ⊢
    obtain ⟨hloops, hfirst⟩ := resolved_plain options s plain haccepts.1
    obtain ⟨hloops', hrest⟩ := ih haccepts.2 hnodup ((emitter options).next s i)
    exact ⟨hloops'.trans hloops, hfirst.append hrest (List.disjoint_nil_left _)⟩
  | block start body close closes rest ihb ihr =>
    rw [Tree.code_block, List.forall_mem_cons, List.forall_mem_append, List.forall_mem_cons]
      at haccepts
    obtain ⟨hstart, hbody, hclose, hrest⟩ := haccepts
    rw [Tree.labels_block, List.nodup_cons, List.nodup_append'] at hnodup
    obtain ⟨hnumber, hnodupb, hnodupr, hdisjoint⟩ := hnodup
    rw [List.mem_append, not_or] at hnumber
    obtain ⟨hloopsb, hlinesb⟩ := ihb hbody hnodupb ((emitter options).next s start)
    obtain ⟨hloops, hblock⟩ := resolved_block options s _ closes hstart hclose hloopsb hlinesb
      hnumber.1
    obtain ⟨hloopsr, hlinesr⟩ := ihr hrest hnodupr _
    rw [Tree.labels_block, Tree.code_block, Emitter.stateAfter_cons, Emitter.stateAfter_append,
      Emitter.stateAfter_cons]
    refine ⟨hloopsr.trans hloops, ?_⟩
    have hall := hblock.append hlinesr (List.disjoint_cons_left.2 ⟨hnumber.2, hdisjoint⟩)
    rw [Emitter.piecesOf, Emitter.piecesOf_append, Emitter.piecesOf]
    simpa only [List.append_assoc, List.cons_append] using hall

end Trees

/-! ## 5. The text of the function -/

/-- The line may stand in the function. -/
def Line.inFunction : Line → Bool
  | .label _ | .allocate | .op _ _ | .comment _ | .blank => true
  | _ => false

section Function

variable (w : Width)

theorem matters_op (op : Op) (location : NodeId) : matters (op.line w location) = true := by
  cases op <;> simp (disch := decide) [matters, Op.line, Op.words, temp_ne]

theorem matters_label (l : Label) : matters l.line = true := by
  cases l <;> simp [matters, Label.line, Label.name, ← String.toList_inj, ToString.toString]

/-- The text of a line of the function is read as its words. -/
theorem words_inFunction {line : Line} (h : line.inFunction = true) :
    [words (line.render w)].filter matters = (line.body? w).toList := by
  cases line with
  | label l => simp [words_label, matters_label, Line.body?]
  | op op location => simp [words_op, matters_op, Line.body?]
  | comment text => simp [words_comment, matters, Line.body?]
  | allocate => cases w <;> decide
  | blank => cases w <;> decide
  | _ => cases h

theorem render_ne_mainClose {line : Line} (h : line.inFunction = true) :
    line.render w ≠ mainClose := by
  have hclose : words mainClose = ["\x7d"] := by decide
  intro heq
  have hwords : words (line.render w) = ["\x7d"] := (congrArg words heq).trans hclose
  cases line with
  | label l =>
    rw [words_label] at hwords
    cases l <;> simp [Label.line, Label.name, ← String.toList_inj, ToString.toString] at hwords
  | op op location =>
    rw [words_op] at hwords
    simpa [Op.line] using congrArg List.length hwords
  | comment text =>
    rw [words_comment] at hwords
    simp at hwords
  | allocate | blank => revert hwords; cases w <;> decide
  | _ => cases h

theorem filter_words_render {lines : List Line} (h : ∀ line ∈ lines, line.inFunction = true) :
    ((lines.map (Line.render w)).map words).filter matters = bodyOf w lines := by
  induction lines with
  | nil => rfl
  | cons line rest ih =>
    rw [List.forall_mem_cons] at h
    have hfirst := words_inFunction w h.1
    rw [List.map_cons, List.map_cons, ← List.singleton_append, List.filter_append, hfirst, ih h.2]
    cases hbody : line.body? w <;> simp [bodyOf, hbody]

/-- The lines between those that open and close the function. -/
theorem mainLines_eq {before behind : List String} {lines : List Line}
    (hbefore : ∀ text ∈ before, text ≠ mainOpen)
    (hlines : ∀ line ∈ lines, line.inFunction = true) :
    mainLines (before ++ mainOpen :: (lines.map (Line.render w) ++ mainClose :: behind)) =
      bodyOf w lines := by
  have hinside : ∀ text ∈ lines.map (Line.render w), text ≠ mainClose := by
    intro text htext
    obtain ⟨line, hline, rfl⟩ := List.mem_map.1 htext
    exact render_ne_mainClose w (hlines line hline)
  rw [mainLines, List.dropWhile_append_of_pos (by simpa using hbefore),
    List.dropWhile_cons_of_neg (by simp), List.tail_cons,
    List.takeWhile_append_of_pos (by simpa using hinside), List.takeWhile_cons_of_neg (by simp),
    List.append_nil, filter_words_render w hlines]

theorem filterMap_labelIn?_bodyOf (lines : List Line) :
    (bodyOf w lines).filterMap labelIn? = (defined lines).map Label.name := by
  rw [bodyOf, defined, List.filterMap_filterMap, List.map_filterMap]
  congr 1
  funext line
  cases line with
  | label l => exact labelIn?_label l
  | op op location => exact labelIn?_op w op location
  | _ => rfl

theorem targetsIn_bodyOf {lines : List Line} {line : List String} (hline : line ∈ bodyOf w lines)
    {name : String} (hname : name ∈ targetsIn line) : ∃ l ∈ named lines, l.name = name := by
  obtain ⟨source, hsource, hbody⟩ := List.mem_filterMap.1 hline
  cases source with
  | label l =>
    cases hbody
    rw [targetsIn_label] at hname
    cases hname
  | op op location =>
    cases hbody
    rw [targetsIn_op] at hname
    obtain ⟨l, hl, rfl⟩ := List.mem_map.1 hname
    exact ⟨l, List.mem_flatMap.2 ⟨_, hsource, hl⟩, rfl⟩
  | allocate =>
    cases hbody
    cases hname
  | _ => cases hbody

end Function

/-- Everything that a step writes may stand in the function. -/
theorem inFunction_step {s s' : State} {i : Instruction} {lines : List Line}
    (h : Step s i lines s') : ∀ line ∈ lines, line.inFunction = true := by
  have hops (ops : List Op) (location : NodeId) :
      ∀ line ∈ ops.map (Line.op · location), line.inFunction = true := by
    intro line hline
    obtain ⟨op, -, rfl⟩ := List.mem_map.1 hline
    rfl
  have hlabel (l : Label) : ∀ line ∈ labelLines l, line.inFunction = true := by
    simp [labelLines, Line.inFunction]
  cases h with
  | plain => exact hops _ _
  | loopStart =>
    refine List.forall_mem_cons.2 ⟨rfl, ?_⟩
    exact List.forall_mem_append.2
      ⟨List.forall_mem_append.2 ⟨hlabel _, hops _ _⟩, hlabel _⟩
  | loopEnd _ hloops =>
    simp only [closeLoop, hloops]
    exact List.forall_mem_cons.2 ⟨rfl, hlabel _⟩
  | stray => simp
  | guard => exact List.forall_mem_append.2 ⟨hops _ _, hlabel _⟩
  | label => exact List.forall_mem_cons.2 ⟨rfl, hlabel _⟩

theorem inFunction_piecesOf {options : EmitOptions} {s : State} {code : List Instruction}
    (h : (emitter options).Passes s code) :
    ∀ line ∈ (emitter options).piecesOf s code, line.inFunction = true := by
  induction code generalizing s with
  | nil => simp [Emitter.piecesOf]
  | cons i rest ih =>
    obtain ⟨hi, hrest⟩ := h
    rw [result_step_emitter] at hi
    have hcomment : ∀ line ∈ comment options i, line.inFunction = true := by
      unfold comment
      split <;> simp [Line.inFunction]
    rw [Emitter.piecesOf, pieces_step_emitter]
    exact List.forall_mem_append.2
      ⟨List.forall_mem_append.2 ⟨hcomment, inFunction_step (step_of_ok hi)⟩, ih hrest⟩

/-- A stretch between the first label and the last return. -/
theorem WellFormedLines.of_stretch {n : Nat} {lines : List (List String)} (w : Width)
    (location : NodeId) (h : Stretch 0 n lines)
    (hlabels : ("entry" :: lines.filterMap labelIn?).Nodup)
    (htargets : ∀ line ∈ lines, ∀ name ∈ targetsIn line, name ∈ lines.filterMap labelIn?) :
    WellFormedLines (Label.entry.line :: (lines ++ [Op.ret.line w location])) := by
  have hret : labelIn? (Op.ret.line w location) = none := labelIn?_op ..
  have hentry : endsBlock Label.entry.line = false := endsBlock_label _
  have hnames : (Label.entry.line :: (lines ++ [Op.ret.line w location])).filterMap labelIn? =
      "entry" :: lines.filterMap labelIn? := by
    simp [labelIn?_label, hret, Label.name]
  refine ⟨⟨n, ?_⟩, ?_, rfl, ?_, ⟨_, ?_, endsBlock_op w .ret location⟩, by rwa [hnames], ?_⟩
  · have hnone : assignedIn? (Op.ret.line w location) = none := assignedIn?_op ..
    rw [List.filterMap_cons_none (assignedIn?_label _), List.filterMap_append, h.assigned,
      List.filterMap_cons_none hnone]
    simp
  · refine ⟨by rw [usedIn_label]; exact List.nil_subset _, ?_⟩
    rw [labelIn?_label]
    refine h.used.append ⟨?_, trivial⟩
    rw [usedIn_op]
    exact List.nil_subset _
  · refine List.isChain_cons.2 ⟨fun next hnext => follows_inside hentry ?_,
      List.isChain_append.2 ⟨h.blocks, .singleton _, fun line hline next hnext => ?_⟩⟩
    · cases hhead : lines.head? with
      | none =>
        obtain rfl : lines = [] := List.head?_eq_none_iff.1 hhead
        cases hnext
        exact hret
      | some line =>
        rw [List.head?_append, hhead] at hnext
        cases hnext
        exact h.first _ hhead
    · cases hnext
      exact follows_inside (h.last line hline) hret
  · rw [← List.cons_append, List.getLast?_concat]
  · rw [hnames]
    intro line hline name hname
    rw [List.mem_cons, List.mem_append, List.mem_singleton] at hline
    rcases hline with rfl | hline | rfl
    · rw [targetsIn_label] at hname
      cases hname
    · exact List.mem_cons_of_mem _ (htargets line hline name hname)
    · rw [targetsIn_op] at hname
      cases hname

/-- What stands between the first label and the code of a stream. -/
def prologue : List Line :=
  [.allocate, .op (.declarePointer pointerVariableNode) first.location,
    .op .tapeStart first.location]

theorem stretch_prologue (w : Width) : Stretch 0 0 (bodyOf w prologue) := by
  have hbody : bodyOf w prologue = ["%p", "=", "alloca", "ptr", "align", "8"] ::
      [Op.declarePointer pointerVariableNode, Op.tapeStart].map (Op.line w · first.location) := rfl
  have hops : Numbered 0 ([Op.declarePointer pointerVariableNode, Op.tapeStart], 0) := by
    refine ⟨Nat.le_refl 0, rfl, ?_⟩
    simp [ReadsLive, Op.used]
  have hallocate : Stretch 0 0 [["%p", "=", "alloca", "ptr", "align", "8"]] :=
    ⟨Nat.le_refl 0, by decide, ⟨by decide, trivial⟩, .singleton _, by decide, by decide⟩
  rw [hbody]
  exact hallocate.append (stretch_row w first.location hops (by decide))

/-- The lines of the function, for a stream that leaves no loop open. -/
def functionLines (options : EmitOptions) (code : List Instruction) : List Line :=
  .label .entry :: ((prologue ++ (emitter options).piecesOf first code) ++
    [.op .ret (stateAt options code code.length).location])

theorem pieces_finish (options : EmitOptions) {s : State} (hloops : s.loops = []) :
    ∃ behind, (finish options s).pieces = .op .ret s.location :: .functionClose :: behind := by
  simp only [finish, closeAll_nil hloops]
  cases Size.mul options.memorySize options.width.bits with
  | error cause => exact ⟨_, rfl⟩
  | ok tapeBits => exact ⟨_, rfl⟩

/-- The texts of the lines. -/
theorem pieces_emission {options : EmitOptions} {code : List Instruction}
    (hpasses : (emitter options).Passes first code)
    (hloops : (stateAt options code code.length).loops = []) :
    ∃ before behind, (∀ text ∈ before, text ≠ mainOpen) ∧
      (Stream.emission .llvm options code).pieces.toList =
        before ++ mainOpen ::
          ((functionLines options code).map (Line.render options.width)
            ++ mainClose :: behind) := by
  obtain ⟨behind, hfinish⟩ := pieces_finish options hloops
  let top : List Line := [.moduleId options.sourceName, .sourceFile options.sourceName, .blank,
    .tape options.memorySize globalExpressionNode, .blank]
  refine ⟨top.map (Line.render options.width), behind.map (Line.render options.width), ?_, ?_⟩
  · -- the first letters differ
    have hne {text : String} (h : text.toList.head? ≠ some 'd') : text ≠ mainOpen := by
      rintro rfl
      exact h (by decide)
    intro text htext
    obtain ⟨line, hline, rfl⟩ := List.mem_map.1 htext
    simp only [top, List.mem_cons, List.not_mem_nil, or_false] at hline
    refine hne ?_
    rcases hline with rfl | rfl | rfl | rfl | rfl <;> unfold Line.render <;>
      simp [ToString.toString]
  · have hheader : (header options).pieces =
        top ++ .functionOpen mainNode :: .label .entry :: prologue := rfl
    have hopen (w : Width) : (Line.functionOpen mainNode).render w = mainOpen := by
      cases w <;> decide +kernel
    have hpieces : (Stream.emission .llvm options code).pieces.toList =
        (emission options code).pieces.toList.map (Line.render options.width) := Array.toList_map
    rw [hpieces, (emission_of_passes hpasses).1, hheader, hfinish, functionLines]
    simp only [List.map_append, List.map_cons, List.append_assoc, List.cons_append, hopen]
    rfl

/-- **The function of a stream.** -/
theorem wellFormedLines_emission (options : EmitOptions) {code : List Instruction}
    (hwf : Stream.WellFormed code) (haccepts : ∀ i ∈ code, Accepts i) :
    WellFormedLines (mainLines (Stream.emission .llvm options code).pieces.toList) := by
  have hpasses := passes_of_accepts options haccepts
  obtain ⟨t, rfl⟩ := hwf.exists_tree
  obtain ⟨hloops, hresolved⟩ := resolved_tree options haccepts hwf.labels_nodup first
  have hend : (stateAt options t.code t.code.length).loops = [] := by
    rw [stateAt, List.take_length, hloops]
    rfl
  obtain ⟨before, behind, hbefore, hpieces⟩ := pieces_emission hpasses hend
  have hinside : ∀ line ∈ functionLines options t.code, line.inFunction = true := by
    have hprologue : ∀ line ∈ prologue, line.inFunction = true := by decide
    refine List.forall_mem_cons.2 ⟨rfl, List.forall_mem_append.2 ⟨?_, by simp [Line.inFunction]⟩⟩
    exact List.forall_mem_append.2 ⟨hprologue, inFunction_piecesOf hpasses⟩
  -- the prologue has no labels and names none
  let lines := prologue ++ (emitter options).piecesOf first t.code
  have hlines : Resolved (Stream.labels t.code) lines :=
    ⟨hresolved.nodup, hresolved.numbered, hresolved.covered⟩
  have hbody : bodyOf options.width (functionLines options t.code) =
      Label.entry.line :: (bodyOf options.width lines
        ++ [Op.ret.line options.width (stateAt options t.code t.code.length).location]) := by
    rw [functionLines, ← List.singleton_append, bodyOf_append, bodyOf_append]
    rfl
  have hstretch : Stretch 0 ((emitter options).stateAfter first t.code).temps
      (bodyOf options.width lines) := by
    rw [bodyOf_append]
    exact (stretch_prologue options.width).append (stretch_piecesOf hpasses)
  rw [hpieces, mainLines_eq options.width hbefore hinside, hbody]
  refine WellFormedLines.of_stretch _ _ hstretch ?_ fun line hline name hname => ?_
  · have hentry : "entry" :: (bodyOf options.width lines).filterMap labelIn? =
        (Label.entry :: defined lines).map Label.name := by
      rw [filterMap_labelIn?_bodyOf]
      rfl
    rw [hentry]
    have hfresh : Label.entry ∉ defined lines := by
      intro hmem
      obtain ⟨n, -, hnumber⟩ := hlines.numbered _ hmem
      cases hnumber
    exact (List.nodup_cons.2 ⟨hfresh, hlines.nodup⟩).map fun l l' => Label.name_injective
  · obtain ⟨l, hl, rfl⟩ := targetsIn_bodyOf options.width hline hname
    rw [filterMap_labelIn?_bodyOf]
    exact List.mem_map_of_mem (hlines.covered hl)

end Llvm

namespace Source

/-- **The generated function is well-formed**, whether the stream of the text
is optimized or not. -/
theorem llvm_function_wellFormed {text : String} {code : List Instruction}
    (h : parse text = .ok code) (options : EmitOptions) :
    Llvm.WellFormedLines
        (Llvm.mainLines (Stream.emission .llvm options code).pieces.toList) ∧
      ∀ optimized : Optimized, Stream.optimize .llvm code = .ok optimized →
        Llvm.WellFormedLines
          (Llvm.mainLines (Stream.emission .llvm options optimized.code).pieces.toList) := by
  have hwf := (wellFormed_of_parse h).1
  refine ⟨Llvm.wellFormedLines_emission options hwf (llvm_accepts h), fun optimized hoptimize => ?_⟩
  exact Llvm.wellFormedLines_emission options (Pass.wellFormed_of_optimize hwf hoptimize)
    (llvm_accepts_of_optimize h hoptimize)

/-- A text with a read, a write and a loop within a loop. -/
theorem llvm_function_wellFormed_nested :
    ∃ (code : List Instruction) (optimized : Optimized),
      parse "+[,[->+<].]" = .ok code ∧ Stream.optimize .llvm code = .ok optimized ∧
      Llvm.WellFormedLines (Llvm.mainLines
        (Stream.emission .llvm { comments := true } code).pieces.toList) ∧
      Llvm.WellFormedLines (Llvm.mainLines
        (Stream.emission .llvm { comments := true } optimized.code).pieces.toList) := by
  obtain ⟨code, hparse, hsome⟩ : ∃ code, parse "+[,[->+<].]" = .ok code ∧
      (Stream.optimize .llvm code).toOption.isSome = true := by
    refine ⟨[⟨.add, 1, 0, some ⟨1, 1⟩⟩, ⟨.loopStart, 1, 0, some ⟨1, 2⟩⟩,
      ⟨.read, 1, 0, some ⟨1, 3⟩⟩, ⟨.loopStart, 2, 0, some ⟨1, 4⟩⟩, ⟨.sub, 1, 0, some ⟨1, 5⟩⟩,
      ⟨.right, 1, 0, some ⟨1, 6⟩⟩, ⟨.add, 1, 0, some ⟨1, 7⟩⟩, ⟨.left, 1, 0, some ⟨1, 8⟩⟩,
      ⟨.loopEnd, 2, 0, some ⟨1, 9⟩⟩, ⟨.write, 1, 0, some ⟨1, 10⟩⟩,
      ⟨.loopEnd, 1, 0, some ⟨1, 11⟩⟩], ?_, ?_⟩ <;> cbv
  cases hoptimize : Stream.optimize .llvm code with
  | error fault =>
    rw [hoptimize] at hsome
    cases hsome
  | ok optimized =>
    obtain ⟨hplain, hoptimized⟩ := llvm_function_wellFormed hparse { comments := true }
    exact ⟨code, optimized, hparse, hoptimize, hplain, hoptimized optimized hoptimize⟩

end Source

end TapeCompiler
