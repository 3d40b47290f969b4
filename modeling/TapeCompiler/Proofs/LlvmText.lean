/-
TapeCompiler.Proofs.LlvmText — reading LLVM code back from its text.

A line is taken apart into words (`Llvm.words`), and what a line says about
temporaries and labels is read off them: what it assigns and uses, which
labels it names, whether it ends a block. None of this knows how the line was
made. `Llvm.words_op` gives the words of a line that an operation is written
as, and the lemmas behind it say that the reading finds in them what the
operation assigns, uses and names.
-/
import TapeCompiler.Proofs.LlvmLayout

namespace TapeCompiler

namespace Llvm

/-! ## 1. Words -/

/-- The characters between words. -/
def isGap (c : Char) : Bool := c ∈ [' ', ',', '(', ')', '\n']

/-- The words of a text. -/
def words (text : String) : List String :=
  ((text.toList.splitOnP isGap).filter (· ≠ [])).map String.ofList

/-- The text starts between two words. -/
def startsApart (text : String) : Bool := text.toList.head?.any isGap

/-- The text ends between two words. -/
def endsApart (text : String) : Bool := text.toList.getLast?.any isGap

/-- The text is one word. -/
structure IsWord (text : String) : Prop where
  ne : text.toList ≠ []
  solid : text.toList.any isGap = false

/-- A text that does not vary is read character by character. -/
theorem words_ofList (chars : List Char) :
    words (String.ofList chars) = ((chars.splitOnP isGap).filter (· ≠ [])).map String.ofList := by
  rw [words, String.toList_ofList]

/-- **Words end at a gap.** All else about words follows from this. -/
theorem words_gap {text : String} {before behind : List Char} {c : Char} (hc : isGap c = true)
    (h : text.toList = before ++ c :: behind) :
    words text = words (String.ofList before) ++ words (String.ofList behind) := by
  simp only [words, h, List.splitOnP_append_cons _ _ hc, List.filter_append, List.map_append,
    String.toList_ofList]

/-- Where the second text starts between two words, each text keeps its own. -/
theorem words_append_of_starts {s t : String} (h : startsApart t = true) :
    words (s ++ t) = words s ++ words t := by
  cases ht : t.toList with
  | nil => simp [startsApart, ht] at h
  | cons c behind =>
    have hc : isGap c = true := by simpa [startsApart, ht] using h
    have hempty : words (String.ofList []) = [] := rfl
    have hboth : (s ++ t).toList = s.toList ++ c :: behind := by rw [String.toList_append, ht]
    have hright : t.toList = [] ++ c :: behind := ht
    rw [words_gap hc hboth, words_gap hc hright, hempty, List.nil_append, String.ofList_toList]

/-- So it does where the first text ends between two words. -/
theorem words_append_of_ends {s t : String} (h : endsApart s = true) :
    words (s ++ t) = words s ++ words t := by
  rcases List.eq_nil_or_concat s.toList with hs | ⟨before, c, hs⟩
  · simp [endsApart, hs] at h
  · have hc : isGap c = true := by simpa [endsApart, hs] using h
    have hempty : words (String.ofList []) = [] := rfl
    have hleft : s.toList = before ++ c :: [] := by rw [hs, List.concat_eq_append]
    have hboth : (s ++ t).toList = before ++ c :: t.toList := by
      rw [String.toList_append, hleft, List.append_assoc, List.singleton_append]
    rw [words_gap hc hboth, words_gap hc hleft, hempty, List.append_nil, String.ofList_toList]

theorem startsApart_append {s t : String} (h : startsApart s = true) :
    startsApart (s ++ t) = true := by
  cases hs : s.toList with
  | nil => simp [startsApart, hs] at h
  | cons c rest => simpa [startsApart, hs] using h

/-- A text that is one word is read as that word. -/
theorem words_of_isWord {s : String} (h : IsWord s) : words s = [s] := by
  rw [words, List.splitOnP_eq_singleton fun c hc => by simpa using List.any_eq_false.1 h.solid c hc]
  simp [h.ne]

/-- A word before a gap is the first word of the text. A line is read from
left to right with this. -/
theorem words_isWord_append {s t : String} (h : IsWord s) (ht : startsApart t = true) :
    words (s ++ t) = s :: words t := by
  rw [words_append_of_starts ht, words_of_isWord h]
  rfl

/-! ## 2. Words that vary -/

theorem not_isGap_of_isDigit {c : Char} (h : c.isDigit = true) : isGap c = false := by
  rw [isGap, decide_eq_false_iff_not]
  intro hc
  simp only [List.mem_cons, List.not_mem_nil, or_false] at hc
  rcases hc with rfl | rfl | rfl | rfl | rfl <;> cases h

theorem isWord_nat (n : Nat) : IsWord n.repr := by
  refine ⟨by simp, List.any_eq_false.2 fun c hc => ?_⟩
  rw [Nat.toList_repr] at hc
  have hdigit := Nat.isDigit_of_mem_toDigits (by decide) (by decide) hc
  simp [not_isGap_of_isDigit hdigit]

/-- A word in front of which some characters are put. -/
theorem IsWord.prepend {s t : String} (h : IsWord t) (hs : s.toList.any isGap = false) :
    IsWord (s ++ t) := by
  refine ⟨by simp [h.ne], ?_⟩
  rw [String.toList_append, List.any_append, hs, h.solid]
  rfl

/-- A word behind which some characters are put. -/
theorem IsWord.postpend {s t : String} (h : IsWord s) (ht : t.toList.any isGap = false) :
    IsWord (s ++ t) := by
  refine ⟨by simp [h.ne], ?_⟩
  rw [String.toList_append, List.any_append, h.solid, ht]
  rfl

/-- A number is one word with its sign. -/
theorem isWord_int (n : Int) : IsWord (toString n) := by
  rw [Int.toString_eq_repr]
  cases n with
  | ofNat n => exact isWord_nat n
  | negSucc n => exact (isWord_nat (n + 1)).prepend (by decide)

theorem isWord_temp (t : Temp) : IsWord (Temp.render t) := (isWord_nat t).prepend (by decide)

theorem isWord_node (id : NodeId) : IsWord (NodeId.render id) := (isWord_nat id).prepend (by decide)

theorem isWord_cellType (w : Width) : IsWord (cellType w) := by
  cases w <;> exact ⟨by decide, by decide⟩

theorem isWord_binary (op : BinaryOp) : IsWord op.name := by
  cases op <;> exact ⟨by decide, by decide⟩

theorem isWord_value (v : Value) : IsWord v.render := by
  cases v with
  | temp t => exact isWord_temp t
  | const n => exact isWord_int n

theorem isWord_label (l : Label) : IsWord l.name := by
  cases l with
  | entry => exact ⟨by decide, by decide⟩
  | _ n => exact ((isWord_int n).prepend (by decide)).postpend (by decide)

/-- A label as it stands in a branch. -/
theorem isWord_target (l : Label) : IsWord ("%" ++ l.name) := (isWord_label l).prepend (by decide)

/-! ## 3. Words of lines -/

/-- The words of an operation. -/
def Op.words (w : Width) : Op → List String
  | .declarePointer var =>
    ["call", "void", "@llvm.dbg.declare", "metadata", "ptr", "%p", "metadata", var.render,
      "metadata", "!DIExpression"]
  | .tapeStart => ["store", "ptr", "@mem", "ptr", "%p", "align", "8"]
  | .loadPointer dst => [Temp.render dst, "=", "load", "ptr", "ptr", "%p", "align", "8"]
  | .storePointer src => ["store", "ptr", Temp.render src, "ptr", "%p", "align", "8"]
  | .element dst base distance =>
    [Temp.render dst, "=", "getelementptr", "inbounds", cellType w, "ptr", Temp.render base, "i64",
      toString distance]
  | .load dst addr =>
    [Temp.render dst, "=", "load", cellType w, "ptr", Temp.render addr, "align", "1"]
  | .store src addr => ["store", cellType w, src.render, "ptr", Temp.render addr, "align", "1"]
  | .binary op dst lhs rhs =>
    [Temp.render dst, "=", op.name, cellType w, Temp.render lhs, rhs.render]
  | .isNonzero dst src => [Temp.render dst, "=", "icmp", "ne", cellType w, Temp.render src, "0"]
  | .isNegative dst src => [Temp.render dst, "=", "icmp", "slt", "i32", Temp.render src, "0"]
  | .widen dst src => [Temp.render dst, "=", "zext", cellType w, Temp.render src, "to", "i32"]
  | .narrow dst src => [Temp.render dst, "=", "trunc", "i32", Temp.render src, "to", cellType w]
  | .select dst test yes no =>
    [Temp.render dst, "=", "select", "i1", Temp.render test, cellType w, Temp.render yes,
      cellType w, Temp.render no]
  | .putchar dst src =>
    [Temp.render dst, "=", "call", "i32", "@putchar", "i32", "noundef", Temp.render src]
  | .getchar dst => [Temp.render dst, "=", "call", "i32", "@getchar"]
  | .branch target => ["br", "label", "%" ++ target.name]
  | .branchBack target info => ["br", "label", "%" ++ target.name, "!llvm.loop", info.render]
  | .branchIf test yes no =>
    ["br", "i1", Temp.render test, "label", "%" ++ yes.name, "label", "%" ++ no.name]
  | .ret => ["ret", "i32", "0"]

/-- **Reading an operation back**: the words of its text are those listed for
it. -/
theorem words_render (w : Width) (op : Op) : Llvm.words (op.render w) = op.words w := by
  -- the mark of a label stands at the end of a fixed text, but belongs to the next word
  have hfirst (s : String) : "br label %" ++ s = "br label " ++ ("%" ++ s) := by
    simp [← String.toList_inj]
  have hnext (s : String) : ", label %" ++ s = ", label " ++ ("%" ++ s) := by
    simp [← String.toList_inj]
  have hmark (s t : String) : ("%" ++ s) ++ t = "%" ++ (s ++ t) := String.append_assoc
  cases op <;> unfold Op.render <;> simp only [toString_text, String.append_assoc]
  case tapeStart | ret => rfl
  case branch target =>
    rw [hfirst, words_append_of_ends (by decide), words_of_isWord (isWord_target target)]
    rfl
  case branchBack target info =>
    rw [hfirst, ← hmark, words_append_of_ends (by decide),
      words_isWord_append (isWord_target target) (startsApart_append (by decide)),
      words_append_of_ends (by decide), words_of_isWord (isWord_node info)]
    rfl
  case branchIf test yes no =>
    rw [hnext, hnext, ← hmark, words_append_of_ends (by decide),
      words_isWord_append (isWord_temp test) (startsApart_append (by decide)),
      words_append_of_ends (by decide),
      words_isWord_append (isWord_target yes) (startsApart_append (by decide)),
      words_append_of_ends (by decide), words_of_isWord (isWord_target no)]
    rfl
  all_goals
    simp (disch := first
      | (rw [endsApart, String.toList_ofList]; decide)
      | (rw [startsApart, String.toList_ofList]; decide)
      | (apply startsApart_append; rw [startsApart, String.toList_ofList]; decide)) only
      [words_append_of_ends, words_isWord_append (isWord_temp _),
        words_isWord_append (isWord_cellType _), words_isWord_append (isWord_value _),
        words_isWord_append (isWord_binary _), words_isWord_append (isWord_node _),
        words_of_isWord (isWord_temp _), words_of_isWord (isWord_cellType _),
        words_of_isWord (isWord_value _), words_of_isWord (isWord_int _)]
    repeat rw [words_ofList]
    rfl

/-- The words of the line of an operation, which ends in its place. -/
def Op.line (w : Width) (op : Op) (location : NodeId) : List String :=
  op.words w ++ ["!dbg", location.render]

/-- The words of the line of a label. -/
def Label.line (l : Label) : List String := [l.name ++ ":"]

/-- A line ends with its place, two words that belong to no operation. -/
theorem words_op (w : Width) (op : Op) (location : NodeId) :
    words ((Line.op op location).render w) = op.line w location := by
  have htext : (Line.op op location).render w =
      "  " ++ (op.render w ++ (", !dbg " ++ (location.render ++ "\n"))) := by
    simp only [← String.append_assoc]
    rfl
  rw [htext, words_append_of_ends (by decide),
    words_append_of_starts (startsApart_append (by decide)), words_render,
    words_append_of_ends (by decide), words_isWord_append (isWord_node location) (by decide)]
  rfl

/-- A label is one word with its colon. -/
theorem words_label (w : Width) (l : Label) : words ((Line.label l).render w) = l.line := by
  have htext : (Line.label l).render w = (l.name ++ ":") ++ "\n" := by
    rw [String.append_assoc]
    rfl
  rw [htext, words_isWord_append ((isWord_label l).postpend (by decide)) (by decide)]
  rfl

/-- A comment is known by its first word, whatever it says. -/
theorem words_comment (w : Width) (text : String) :
    words ((Line.comment text).render w) = ";" :: words (text ++ "\n") := by
  have htext : (Line.comment text).render w = "  ; " ++ (text ++ "\n") := by
    rw [← String.append_assoc]
    rfl
  rw [htext, words_append_of_ends (by decide)]
  rfl

/-! ## 4. What a line says

A line is given by its words. -/

/-- The word names a temporary. -/
def isTemp (word : String) : Bool := word.toList.head? = some '%' ∧ word.toList[1]? = some 't'

/-- The line assigns its first word. -/
def assigns (line : List String) : Bool := line.tail.head? = some "="

/-- The temporary that a line assigns. -/
def assignedIn? (line : List String) : Option String :=
  if assigns line then line.head?.filter isTemp else none

/-- The temporaries that a line uses. -/
def usedIn (line : List String) : List String :=
  (if assigns line then line.tail else line).filter isTemp

/-- The line branches. -/
def branches (line : List String) : Bool := line.head? = some "br"

/-- The line branches or returns. -/
def endsBlock (line : List String) : Bool := branches line || line.head? = some "ret"

/-- The labels that a branch names, without their marks. -/
def targetsIn (line : List String) : List String :=
  if branches line then
    (line.zip line.tail).filterMap fun (word, next) =>
      if word = "label" then some (String.ofList next.toList.tail) else none
  else []

/-- The label that a line is, without its colon. -/
def labelIn? : List String → Option String
  | [word] =>
    if word.toList.getLast? = some ':' then some (String.ofList word.toList.dropLast) else none
  | _ => none

section Reading

variable (w : Width)

@[simp] theorem isTemp_temp (t : Temp) : isTemp (Temp.render t) = true := by
  simp [isTemp, Temp.render, ToString.toString]

@[simp] theorem isTemp_node (id : NodeId) : isTemp id.render = false := by
  simp [isTemp, NodeId.render, ToString.toString]

/-- A label in a branch has the same mark as a temporary, but another letter
behind it. -/
@[simp] theorem isTemp_target (l : Label) : isTemp ("%" ++ l.name) = false := by
  cases l <;> simp [isTemp, Label.name, ToString.toString]

@[simp] theorem isTemp_cellType : isTemp (cellType w) = false := by
  cases w <;> decide

@[simp] theorem isTemp_binary (op : BinaryOp) : isTemp op.name = false := by
  cases op <;> decide

@[simp] theorem isTemp_int (n : Int) : isTemp n.repr = false := by
  have hdigit (m : Nat) : '%' ∉ m.repr.toList := by
    intro hmem
    rw [Nat.toList_repr] at hmem
    cases Nat.isDigit_of_mem_toDigits (by decide) (by decide) hmem
  rw [isTemp, decide_eq_false_iff_not]
  rintro ⟨hhead, -⟩
  have hmem : '%' ∈ n.repr.toList := List.mem_of_mem_head? hhead
  cases n with
  | ofNat m => exact hdigit m hmem
  | negSucc m =>
    have htext : (Int.negSucc m).repr.toList = '-' :: (m + 1).repr.toList := String.toList_append
    rw [htext, List.mem_cons] at hmem
    exact hmem.elim (by decide) (hdigit (m + 1))

/-- A temporary differs from every word that names none. -/
theorem temp_ne {word : String} (h : isTemp word = false) (t : Temp) : Temp.render t ≠ word := by
  rintro rfl
  rw [isTemp_temp] at h
  cases h

/-- A store has its cell type where an assignment has the equality sign. -/
theorem cellType_ne : cellType w ≠ "=" := by
  cases w <;> decide

/-- Reading a line finds what its operation assigns. -/
theorem assignedIn?_op (op : Op) (location : NodeId) :
    assignedIn? (op.line w location) = op.assigned?.map Temp.render := by
  cases op <;> simp [Op.line, Op.words, Op.assigned?, assignedIn?, assigns, cellType_ne]

/-- Reading a line finds what its operation uses, in the same order. -/
theorem usedIn_op (op : Op) (location : NodeId) :
    usedIn (op.line w location) = op.used.map Temp.render := by
  cases op
  case store src addr =>
    cases src <;>
      simp (disch := decide) [Op.line, Op.words, Op.used, Value.temps, Value.render, usedIn,
        assigns, cellType_ne, List.filter_cons]
  case binary op dst lhs rhs =>
    cases rhs <;>
      simp (disch := decide) [Op.line, Op.words, Op.used, Value.temps, Value.render, usedIn,
        assigns, List.filter_cons]
  all_goals
    simp (disch := decide) [Op.line, Op.words, Op.used, usedIn, assigns, List.filter_cons]

/-- The lines that are read as branches are those with targets. -/
theorem branches_op (op : Op) (location : NodeId) :
    branches (op.line w location) = !op.targets.isEmpty := by
  cases op <;> simp (disch := decide) [Op.line, Op.words, Op.targets, branches, temp_ne]

/-- A line ends a block as its operation does. -/
theorem endsBlock_op (op : Op) (location : NodeId) :
    endsBlock (op.line w location) = op.endsBlock := by
  rw [endsBlock, branches_op]
  cases op <;> simp (disch := decide) [Op.line, Op.words, Op.targets, Op.endsBlock, temp_ne]

/-- Reading a branch finds the labels that it names. -/
theorem targetsIn_op (op : Op) (location : NodeId) :
    targetsIn (op.line w location) = op.targets.map Label.name := by
  have htarget (l : Label) : "%" ++ l.name ≠ "label" := by simp [← String.toList_inj]
  have hnode (id : NodeId) : id.render ≠ "label" := by
    simp [← String.toList_inj, NodeId.render, ToString.toString]
  rw [targetsIn, branches_op]
  cases op <;>
    simp (disch := decide) [Op.line, Op.words, Op.targets, List.filterMap_cons, htarget, hnode,
      temp_ne]

/-- No operation is read as a label: it has more words than one. -/
theorem labelIn?_op (op : Op) (location : NodeId) : labelIn? (op.line w location) = none := by
  cases op <;> rfl

/-- A label is read without its colon. -/
theorem labelIn?_label (l : Label) : labelIn? l.line = some l.name := by
  simp [labelIn?, Label.line]

theorem assignedIn?_label (l : Label) : assignedIn? l.line = none := rfl

theorem usedIn_label (l : Label) : usedIn l.line = [] := by
  have hlabel : isTemp (l.name ++ ":") = false := by
    cases l <;> simp [isTemp, Label.name, ToString.toString]
  simp [usedIn, assigns, Label.line, hlabel]

/-- No label reads like a branch or a return. -/
theorem endsBlock_label (l : Label) : endsBlock l.line = false := by
  cases l <;>
    simp [endsBlock, branches, Label.line, Label.name, ← String.toList_inj, ToString.toString]

theorem targetsIn_label (l : Label) : targetsIn l.line = [] := by
  have hends := endsBlock_label l
  simp only [endsBlock, Bool.or_eq_false_iff] at hends
  simp [targetsIn, hends.1]

end Reading

end Llvm

end TapeCompiler
