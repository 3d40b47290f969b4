/-
TapeCompiler.Proofs.Reading — which stream a source text stands for.

`Source.parse` reads a text from left to right with a cursor, a counter and
a stack. What it makes of the text is said here without any of them:

* `Source.Balanced` is the grammar of balanced brackets;
* `Source.placeBehind` finds line and column of a character from the text
  before it, by counting line ends and the characters since the last one;
* `Source.ReadAs` says which instruction a symbol stands for. The `k`-th
  opening bracket has label `k`. A closing bracket takes the label of the
  one that it is matched with: what lies between the two is balanced, and
  no other opening bracket has this property (`Source.Encloses.unique`).

`Source.parse_eq_ok_iff` puts this together: the streams that are read from
a text are those that the text stands for. The reader's stack is described
by `Source.Pending`, which cuts the text at every bracket still open, with
balanced text between the cuts. A text for which the reader fails has one
closing bracket too many at some point, or one too few at the end, and no
balanced text has (`Source.Balanced.count_le`, `Source.Balanced.count_eq`).
-/
import TapeCompiler.Source
import Mathlib.Data.List.Forall2
import Mathlib.Data.List.DropRight

namespace TapeCompiler

namespace Source

/-! ## 1. Balanced brackets -/

/-- Brackets that balance: none, or a pair around such brackets with more of
them behind it. -/
inductive Balanced : List Char → Prop where
  | empty : Balanced []
  | pair {inner rest : List Char} (hinner : Balanced inner) (hrest : Balanced rest) :
      Balanced ('[' :: (inner ++ ']' :: rest))

/-- The brackets of a text, in order. -/
def brackets (text : List Char) : List Char :=
  text.filter (fun c => c == '[' || c == ']')

@[simp] theorem brackets_nil : brackets [] = [] := rfl

@[simp] theorem brackets_append (text text' : List Char) :
    brackets (text ++ text') = brackets text ++ brackets text' := by
  simp [brackets]

@[simp] theorem brackets_open (text : List Char) : brackets ('[' :: text) = '[' :: brackets text :=
  rfl

@[simp] theorem brackets_close (text : List Char) : brackets (']' :: text) = ']' :: brackets text :=
  rfl

theorem brackets_cons_of_ne {c : Char} (hopen : c ≠ '[') (hclose : c ≠ ']') (text : List Char) :
    brackets (c :: text) = brackets text := by
  simp [brackets, hopen, hclose]

namespace Balanced

theorem append {w w' : List Char} (h : Balanced w) (h' : Balanced w') : Balanced (w ++ w') := by
  induction h with
  | empty => exact h'
  | pair hinner _ _ ih => simpa using pair hinner ih

/-- As many brackets are closed as are opened. -/
theorem count_eq {w : List Char} (h : Balanced w) : w.count '[' = w.count ']' := by
  induction h with
  | empty => rfl
  | pair _ _ ih ih' =>
    simp only [List.count_cons, List.count_append]
    simp
    omega

/-- At no point more brackets are closed than are opened. -/
theorem count_le {w before after : List Char} (h : Balanced w) (hw : w = before ++ after) :
    before.count ']' ≤ before.count '[' := by
  induction h generalizing before after with
  | empty =>
    obtain ⟨rfl, -⟩ := List.append_eq_nil_iff.1 hw.symm
    exact Nat.le_refl _
  | @pair inner rest hinner _ ih ih' =>
    cases before with
    | nil => exact Nat.le_refl _
    | cons c before =>
      obtain ⟨rfl, hbehind⟩ := List.cons_eq_cons.1 hw
      have hpair := hinner.count_eq
      rcases List.append_eq_append_iff.1 hbehind with ⟨more, rfl, hmore⟩ | ⟨more, hmore, -⟩
      · -- the cut lies behind the inner brackets
        cases more with
        | nil => simp [hpair]
        | cons c' more =>
          obtain ⟨rfl, hrest⟩ := List.cons_eq_cons.1 hmore
          have hle := ih' hrest
          simp only [List.count_cons, List.count_append]
          simp
          omega
      · have hle := ih hmore
        simp only [List.count_cons]
        simp
        omega

end Balanced

/-! ## 2. Places and partners -/

/-- The place of the character that stands behind this text: one line
further for every line end, and one column further for every character
since the last of them. -/
def placeBehind (before : List Char) : Position :=
  ⟨1 + before.count '\n', 1 + (before.rtakeWhile (· != '\n')).length⟩

theorem placeBehind_append (before : List Char) (c : Char) :
    placeBehind (before ++ [c]) = (placeBehind before).after c := by
  unfold placeBehind Position.after
  by_cases hc : c = '\n'
  · rw [List.rtakeWhile_concat_neg _ _ _ (by simp [hc])]
    simp [hc, List.count_append, Nat.add_assoc]
  · rw [List.rtakeWhile_concat_pos _ _ _ (by simp [hc])]
    simp [hc, List.count_append, Nat.add_assoc]

/-- A closing bracket behind `before` is matched with the opening bracket
behind `outer`: the text between them balances. -/
def Encloses (outer before : List Char) : Prop :=
  ∃ inner, before = outer ++ '[' :: inner ∧ Balanced (brackets inner)

/-- Text that is followed by an opening bracket and balanced text does not
balance. -/
theorem not_balanced_of_open {before inner : List Char} (hinner : Balanced (brackets inner)) :
    ¬ Balanced (brackets (before ++ '[' :: inner)) := by
  intro h
  have hbefore := h.count_le (brackets_append before _)
  have hall := h.count_eq
  have hpart := hinner.count_eq
  simp only [brackets_append, brackets_open, List.count_append, List.count_cons] at hall
  simp at hall
  omega

/-- A closing bracket has one partner at most. -/
theorem Encloses.unique {outer outer' before : List Char} (h : Encloses outer before)
    (h' : Encloses outer' before) : outer = outer' := by
  obtain ⟨inner, rfl, hinner⟩ := h
  obtain ⟨inner', heq, hinner'⟩ := h'
  -- the longer of the two inner texts would have the other bracket in it
  rcases List.append_eq_append_iff.1 heq with ⟨more, rfl, hmore⟩ | ⟨more, rfl, hmore⟩
  · cases more with
    | nil => simp
    | cons c more =>
      obtain ⟨rfl, rfl⟩ := List.cons_eq_cons.1 hmore
      exact absurd hinner (not_balanced_of_open hinner')
  · cases more with
    | nil => simp
    | cons c more =>
      obtain ⟨rfl, rfl⟩ := List.cons_eq_cons.1 hmore
      exact absurd hinner' (not_balanced_of_open hinner)

/-! ## 3. The stream of a text -/

/-- The characters that are instructions; all others are comments. -/
def symbols : List Char := ['+', '-', '>', '<', '.', ',', '[', ']']

/-- The symbols of a text, each with the text before it, if `before` comes
first. -/
def occurrences (before : List Char) : List Char → List (List Char × Char)
  | [] => []
  | c :: rest =>
    if c ∈ symbols then (before, c) :: occurrences (before ++ [c]) rest
    else occurrences (before ++ [c]) rest

/-- The value of the instruction for the symbol `c` behind `before`. -/
def HasValue (before : List Char) (c : Char) (value : Int) : Prop :=
  if c = '[' then value = before.count '[' + 1
  else if c = ']' then ∃ outer, Encloses outer before ∧ value = outer.count '[' + 1
  else value = 1

/-- The instruction that the symbol `c` behind `before` stands for. -/
structure ReadAs (before : List Char) (c : Char) (i : Instruction) : Prop where
  opcode : i.opcode.symbol? = some c
  value : HasValue before c i.value
  offset : i.offset = 0
  position : i.position = some (placeBehind before)

/-- The stream has one instruction for each symbol of the text, in the order
of the text. -/
def StandsFor (text : List Char) (code : List Instruction) : Prop :=
  List.Forall₂ (fun place i => ReadAs place.1 place.2 i) (occurrences [] text) code

theorem mem_symbols_iff {c : Char} : c ∈ symbols ↔ ∃ op, Opcode.ofSymbol? c = some op := by
  constructor
  · intro h
    simp only [symbols, List.mem_cons, List.not_mem_nil, or_false] at h
    rcases h with rfl | rfl | rfl | rfl | rfl | rfl | rfl | rfl <;> exact ⟨_, rfl⟩
  · rintro ⟨op, h⟩
    have hsymbol := Opcode.ofSymbol?_eq_some_iff.1 h
    cases op <;> simp [Opcode.symbol?] at hsymbol <;> subst hsymbol <;> decide

theorem occurrences_append (before text text' : List Char) :
    occurrences before (text ++ text') =
      occurrences before text ++ occurrences (before ++ text) text' := by
  induction text generalizing before with
  | nil => simp [occurrences]
  | cons c text ih =>
    simp only [List.cons_append, occurrences, ih]
    split <;> simp

theorem HasValue.unique {before : List Char} {c : Char} {value value' : Int}
    (h : HasValue before c value) (h' : HasValue before c value') : value = value' := by
  unfold HasValue at h h'
  split at h
  · simp_all
  split at h
  · simp only [*, if_true] at h'
    obtain ⟨outer, hencloses, rfl⟩ := h
    obtain ⟨outer', hencloses', rfl⟩ := h'
    rw [hencloses.unique hencloses']
  · simp_all

theorem ReadAs.unique {before : List Char} {c : Char} {i i' : Instruction}
    (h : ReadAs before c i) (h' : ReadAs before c i') : i = i' := by
  obtain ⟨op, value, offset, position⟩ := i
  obtain ⟨op', value', offset', position'⟩ := i'
  have hop : Opcode.ofSymbol? c = some op := Opcode.ofSymbol?_eq_some_iff.2 h.opcode
  have hop' : Opcode.ofSymbol? c = some op' := Opcode.ofSymbol?_eq_some_iff.2 h'.opcode
  obtain rfl : op = op' := Option.some.inj (hop.symm.trans hop')
  obtain rfl : value = value' := h.value.unique h'.value
  obtain rfl : offset = offset' := h.offset.trans h'.offset.symm
  obtain rfl : position = position' := h.position.trans h'.position.symm
  rfl

/-- A text stands for one stream at most. -/
theorem StandsFor.unique {text : List Char} {code code' : List Instruction}
    (h : StandsFor text code) (h' : StandsFor text code') : code = code' := by
  unfold StandsFor at h h'
  generalize occurrences [] text = places at h h'
  induction h generalizing code' with
  | nil =>
    cases h'
    rfl
  | cons hread _ ih =>
    cases h' with
    | cons hread' hrest' => rw [hread.unique hread', ih hrest']

/-- One more character adds the instruction it stands for, if it is a
symbol. -/
theorem StandsFor.append_symbol {text : List Char} {code : List Instruction}
    (h : StandsFor text code) {c : Char} {i : Instruction} (hc : ReadAs text c i) :
    StandsFor (text ++ [c]) (code ++ [i]) := by
  have hsymbol : c ∈ symbols :=
    mem_symbols_iff.2 ⟨_, Opcode.ofSymbol?_eq_some_iff.2 hc.opcode⟩
  unfold StandsFor
  rw [occurrences_append]
  simp only [occurrences, hsymbol, if_true, List.nil_append]
  exact List.rel_append h (.cons hc .nil)

theorem StandsFor.append_comment {text : List Char} {code : List Instruction}
    (h : StandsFor text code) {c : Char} (hc : Opcode.ofSymbol? c = none) :
    StandsFor (text ++ [c]) code := by
  have hsymbol : c ∉ symbols := fun hmem => by
    obtain ⟨op, hop⟩ := mem_symbols_iff.1 hmem
    simp [hc] at hop
  unfold StandsFor
  rw [occurrences_append]
  simpa [occurrences, hsymbol, StandsFor] using h

/-! ## 4. The reader -/

/-- The loops that are open behind a text, innermost first: the text is cut
at their brackets, and all between the cuts balances. -/
inductive Pending : List Char → List OpenLoop → Prop where
  | none {text : List Char} (h : Balanced (brackets text)) : Pending text []
  | opened {outer inner : List Char} {rest : List OpenLoop} (houter : Pending outer rest)
      (hinner : Balanced (brackets inner)) :
      Pending (outer ++ '[' :: inner) (⟨outer.count '[' + 1, placeBehind outer⟩ :: rest)

/-- Balanced text leaves open what was open. -/
theorem Pending.append {text more : List Char} {loops : List OpenLoop} (h : Pending text loops)
    (hmore : Balanced (brackets more)) : Pending (text ++ more) loops := by
  cases h with
  | none h => exact .none (by simpa using h.append hmore)
  | opened houter hinner =>
    have hboth := hinner.append hmore
    rw [← brackets_append] at hboth
    simpa using houter.opened hboth

/-- A text with open loops does not balance. -/
theorem Pending.not_balanced {text : List Char} {loop : OpenLoop} {loops : List OpenLoop}
    (h : Pending text (loop :: loops)) : ¬ Balanced (brackets text) := by
  cases h with
  | opened _ hinner => exact not_balanced_of_open hinner

/-- Where nothing is open, nothing can be closed. -/
theorem Pending.not_balanced_close {text : List Char} (h : Pending text []) (more : List Char) :
    ¬ Balanced (brackets (text ++ ']' :: more)) := by
  intro hall
  cases h with
  | none h =>
    have hequal := h.count_eq
    have hsplit : brackets (text ++ ']' :: more) = (brackets text ++ [']']) ++ brackets more := by
      simp
    have hle := hall.count_le hsplit
    simp only [List.count_append, List.count_singleton] at hle
    simp at hle
    omega

end Source

namespace Reader

/-- What the reader knows after these characters is what they stand for. -/
structure Reads (r : Reader) (passed : List Char) : Prop where
  cursor : r.cursor = Source.placeBehind passed
  loops : r.loops = passed.count '['
  pending : Source.Pending passed r.pending
  code : Source.StandsFor passed r.code.toList

theorem reads_start : Reads {} [] :=
  ⟨rfl, rfl, .none .empty, .nil⟩

variable {r r' : Reader} {passed : List Char} {c : Char}

/-- A symbol that is no bracket. -/
theorem Reads.step {op : Opcode} (hr : r.Reads passed) (hop : Opcode.ofSymbol? c = some op)
    (hopen : op ≠ .loopStart) (hclose : op ≠ .loopEnd) :
    Source.Pending (passed ++ [c]) r.pending ∧ (passed ++ [c]).count '[' = passed.count '[' ∧
      Source.ReadAs passed c ⟨op, 1, 0, some r.cursor⟩ := by
  have hc : c ≠ '[' := by
    rintro rfl
    exact hopen (Option.some.inj hop).symm
  have hc' : c ≠ ']' := by
    rintro rfl
    exact hclose (Option.some.inj hop).symm
  refine ⟨hr.pending.append ?_, by simp [List.count_append, hc], ?_⟩
  · simpa [Source.brackets_cons_of_ne hc hc'] using Source.Balanced.empty
  · exact ⟨Opcode.ofSymbol?_eq_some_iff.1 hop, by simp [Source.HasValue, hc, hc'], rfl,
      congrArg some hr.cursor⟩

/-- One character adds what it stands for. -/
theorem Reads.feed (hr : r.Reads passed) (h : r.feed c = .ok r') : r'.Reads (passed ++ [c]) := by
  obtain ⟨r₁, haccept, h⟩ := bind_eq_ok_iff.1 h
  cases h
  have hcursor : r.cursor.after c = Source.placeBehind (passed ++ [c]) := by
    rw [Source.placeBehind_append, hr.cursor]
  unfold accept at haccept
  split at haccept
  · rename_i hop
    cases haccept
    have hc : c ≠ '[' := fun hc => by simp [hc, Opcode.ofSymbol?] at hop
    have hc' : c ≠ ']' := fun hc => by simp [hc, Opcode.ofSymbol?] at hop
    refine ⟨hcursor, ?_, hr.pending.append ?_, hr.code.append_comment hop⟩
    · simp [List.count_append, hc, hr.loops]
    · simpa [Source.brackets_cons_of_ne hc hc'] using Source.Balanced.empty
  · rename_i hop
    cases haccept
    obtain rfl : '[' = c := Option.some.inj (Opcode.ofSymbol?_eq_some_iff.1 hop)
    refine ⟨hcursor, ?_, ?_, ?_⟩
    · simp [List.count_append, hr.loops]
    · rw [hr.cursor, hr.loops]
      exact hr.pending.opened .empty
    · have hread : Source.ReadAs passed '[' ⟨.loopStart, (r.loops + 1 : Nat), 0, some r.cursor⟩ :=
        ⟨rfl, by simp [Source.HasValue, hr.loops], rfl, congrArg some hr.cursor⟩
      simpa [push] using hr.code.append_symbol hread
  · rename_i hop
    obtain rfl : ']' = c := Option.some.inj (Opcode.ofSymbol?_eq_some_iff.1 hop)
    split at haccept
    · cases haccept
    · rename_i opened rest hpending
      cases haccept
      have hcut := hr.pending
      rw [hpending] at hcut
      cases hcut with
      | @opened outer inner _ houter hinner =>
        refine ⟨hcursor, by simp [List.count_append, hr.loops, push], ?_, ?_⟩
        · have hpair : Source.Balanced (Source.brackets ('[' :: (inner ++ [']']))) := by
            simpa using Source.Balanced.pair hinner .empty
          simpa using houter.append hpair
        · have hread : Source.ReadAs (outer ++ '[' :: inner) ']'
              ⟨.loopEnd, (outer.count '[' + 1 : Nat), 0, some r.cursor⟩ :=
            ⟨rfl, ⟨outer, ⟨inner, rfl, hinner⟩, by simp⟩, rfl, congrArg some hr.cursor⟩
          simpa [push] using hr.code.append_symbol hread
  · rename_i op hopen hclose hop
    cases haccept
    obtain ⟨hpending, hcount, hread⟩ := hr.step hop hopen hclose
    exact ⟨hcursor, by rw [hcount, ← hr.loops]; rfl, hpending,
      by simpa [push] using hr.code.append_symbol hread⟩

/-- The reader refuses a character only if the brackets up to it are beyond
repair. -/
theorem Reads.not_balanced_of_feed {e : ParseError} (hr : r.Reads passed)
    (h : r.feed c = .error e) (more : List Char) :
    ¬ Source.Balanced (Source.brackets (passed ++ c :: more)) := by
  have haccept : r.accept c = .error e := by
    cases ha : r.accept c with
    | error e' => simpa [Reader.feed, ha, bind, Except.bind] using h
    | ok r₁ => simp [Reader.feed, ha, bind, Except.bind, pure, Except.pure] at h
  unfold accept at haccept
  split at haccept
  · cases haccept
  · cases haccept
  · rename_i hop
    obtain rfl : ']' = c := Option.some.inj (Opcode.ofSymbol?_eq_some_iff.1 hop)
    split at haccept
    · rename_i hpending
      exact (hpending ▸ hr.pending).not_balanced_close more
    · cases haccept
  · cases haccept

/-- A whole text adds what it stands for. -/
theorem Reads.feed_all {text : List Char} (hr : r.Reads passed)
    (h : text.foldlM Reader.feed r = .ok r') : r'.Reads (passed ++ text) := by
  induction text generalizing r passed with
  | nil =>
    cases h
    simpa using hr
  | cons c text ih =>
    obtain ⟨r₁, hfeed, h⟩ := bind_eq_ok_iff.1 h
    simpa using ih (hr.feed hfeed) h

theorem Reads.not_balanced_of_feed_all {text : List Char} {e : ParseError} (hr : r.Reads passed)
    (h : text.foldlM Reader.feed r = .error e) :
    ¬ Source.Balanced (Source.brackets (passed ++ text)) := by
  induction text generalizing r passed with
  | nil => cases h
  | cons c text ih =>
    rw [List.foldlM_cons] at h
    cases hfeed : r.feed c with
    | error e' => exact hr.not_balanced_of_feed hfeed text
    | ok r₁ =>
      rw [hfeed] at h
      simpa using ih (hr.feed hfeed) h

end Reader

/-! ## 5. Whole texts -/

namespace Source

variable {text : List Char} {code : List Instruction}

theorem standsFor_of_parseChars (h : parseChars text = .ok code) :
    Balanced (brackets text) ∧ StandsFor text code := by
  obtain ⟨r, hfeed, hfinish⟩ := bind_eq_ok_iff.1 h
  have hr := Reader.reads_start.feed_all hfeed
  have hpending := hr.pending
  unfold Reader.finish at hfinish
  split at hfinish
  · rename_i hnone
    cases hfinish
    rw [hnone] at hpending
    cases hpending with
    | none hbalanced => exact ⟨by simpa using hbalanced, by simpa using hr.code⟩
  · cases hfinish

theorem not_balanced_of_parseChars {e : ParseError} (h : parseChars text = .error e) :
    ¬ Balanced (brackets text) := by
  unfold parseChars at h
  cases hfeed : text.foldlM Reader.feed {} with
  | error e' => simpa using Reader.reads_start.not_balanced_of_feed_all hfeed
  | ok r =>
    have hpending := (Reader.reads_start.feed_all hfeed).pending
    rw [hfeed] at h
    cases hloops : r.pending with
    | nil => simp [bind, Except.bind, Reader.finish, hloops] at h
    | cons loop loops =>
      rw [hloops] at hpending
      simpa using hpending.not_balanced

/-- The reader accepts a text if, and only if, its brackets balance. -/
theorem exists_parseChars_iff :
    (∃ code, parseChars text = .ok code) ↔ Balanced (brackets text) := by
  constructor
  · rintro ⟨code, h⟩
    exact (standsFor_of_parseChars h).1
  · intro hbalanced
    cases h : parseChars text with
    | error e => exact absurd hbalanced (not_balanced_of_parseChars h)
    | ok code => exact ⟨code, rfl⟩

/-- **Reading a source text.** A text is accepted exactly if its brackets
balance, and what is read from it is the one stream that it stands for: one
instruction for each symbol, with the opcode of the symbol, its line and
column, the number of an opening bracket as its label, and for a closing
bracket the label of its partner. -/
theorem parse_eq_ok_iff (text : String) :
    ((∃ code, parse text = .ok code) ↔ Balanced (brackets text.toList)) ∧
      ∀ code, parse text = .ok code ↔
        Balanced (brackets text.toList) ∧ StandsFor text.toList code := by
  refine ⟨exists_parseChars_iff, fun code => ⟨standsFor_of_parseChars, ?_⟩⟩
  rintro ⟨hbalanced, hstands⟩
  obtain ⟨code', hparse⟩ := exists_parseChars_iff.2 hbalanced
  obtain rfl : code' = code := (standsFor_of_parseChars hparse).2.unique hstands
  exact hparse

end Source

end TapeCompiler
