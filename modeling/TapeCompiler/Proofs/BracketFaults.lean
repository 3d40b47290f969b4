/-
TapeCompiler.Proofs.BracketFaults — which bracket a refused text is refused for.

`Source.parse_eq_ok_iff` says which texts are accepted. Here is what the
reader says about all others, again without its cursor and its stack:

* `Source.FirstOverclosed` is the shortest part of a text, from its start,
  that closes more brackets than it opens. If there is one, its last
  character is to blame.
* `Source.LastUnmatchedOpen` is the last opening bracket that no closing
  bracket is matched with. It is to blame in all other cases.

The reader's stack is `Source.Pending`: the text is cut at the brackets that
are open, with balanced text between the cuts. While there is a stack, no
part of the text is overclosed (`Source.Pending.not_overclosed`), so a
refusal in the middle is about the first part that is. At the end, the
topmost cut is the last bracket that is not matched, for behind it all
opening brackets are matched within balanced text
(`Source.Balanced.exists_close`).
-/
import TapeCompiler.Proofs.Reading
import Mathlib.Data.List.Infix

namespace TapeCompiler

namespace Source

/-! ## 1. Blame -/

/-- The text closes more brackets than it opens. -/
def Overclosed (text : List Char) : Prop := text.count '[' < text.count ']'

instance decidableOverclosed (text : List Char) : Decidable (Overclosed text) :=
  inferInstanceAs (Decidable (_ < _))

/-- The text up to the character `c` behind `before` is the shortest part,
from the start of the text, that is overclosed. -/
structure FirstOverclosed (text before : List Char) (c : Char) : Prop where
  within : before ++ [c] <+: text
  overclosed : Overclosed (before ++ [c])
  shortest : ∀ part, part <+: text → Overclosed part → (before ++ [c]).length ≤ part.length

/-- Behind `outer` the text has an opening bracket, and no closing bracket
of the text is matched with it. -/
structure UnmatchedOpen (text outer : List Char) : Prop where
  opens : outer ++ ['['] <+: text
  unmatched : ∀ before, before ++ [']'] <+: text → ¬ Encloses outer before

/-- The opening bracket behind `outer` is the last one that is not matched. -/
structure LastUnmatchedOpen (text outer : List Char) : Prop extends UnmatchedOpen text outer where
  last : ∀ outer', UnmatchedOpen text outer' → outer'.length ≤ outer.length

/-! ## 2. Balanced text -/

@[simp] theorem count_brackets_open (text : List Char) :
    (brackets text).count '[' = text.count '[' :=
  List.count_filter rfl

@[simp] theorem count_brackets_close (text : List Char) :
    (brackets text).count ']' = text.count ']' :=
  List.count_filter rfl

/-- No part of a balanced text is overclosed. -/
theorem Balanced.not_overclosed {text part : List Char} (h : Balanced (brackets text))
    (hpart : part <+: text) : ¬ Overclosed part := by
  obtain ⟨more, rfl⟩ := hpart
  have hle := h.count_le (brackets_append part more)
  simp only [count_brackets_open, count_brackets_close] at hle
  unfold Overclosed
  omega

/-- One closing bracket more than balanced text is too much. -/
theorem Balanced.overclosed {text : List Char} (h : Balanced (brackets text)) :
    Overclosed (text ++ [']']) := by
  have hequal := h.count_eq
  simp only [count_brackets_open, count_brackets_close] at hequal
  simp [Overclosed, hequal]

/-- Every opening bracket among balanced ones has a partner, with balanced
brackets between the two. -/
theorem Balanced.exists_partner {w before behind : List Char} (h : Balanced w)
    (hw : w = before ++ '[' :: behind) :
    ∃ inner more, behind = inner ++ ']' :: more ∧ Balanced inner := by
  induction h generalizing before behind with
  | empty => simp at hw
  | @pair inner rest hinner hrest ihinner ihrest =>
    cases before with
    | nil =>
      obtain ⟨-, rfl⟩ := List.cons_eq_cons.1 hw
      exact ⟨inner, rest, rfl, hinner⟩
    | cons c before =>
      obtain ⟨-, htail⟩ := List.cons_eq_cons.1 hw
      rcases List.append_eq_append_iff.1 htail with ⟨more, rfl, hmore⟩ | ⟨more, rfl, hmore⟩
      · cases more with
        | nil => simp at hmore
        | cons c' more => exact ihrest (List.cons_eq_cons.1 hmore).2
      · cases more with
        | nil => simp at hmore
        | cons c' more =>
          obtain ⟨rfl, rfl⟩ := List.cons_eq_cons.1 hmore
          obtain ⟨inner', more', rfl, hinner'⟩ := ihinner rfl
          exact ⟨inner', more' ++ ']' :: rest, by simp, hinner'⟩

/-- The same of a text with other characters in it. -/
theorem Balanced.exists_close {before behind : List Char}
    (h : Balanced (brackets (before ++ '[' :: behind))) :
    ∃ inner more, behind = inner ++ ']' :: more ∧ Balanced (brackets inner) := by
  obtain ⟨w, w', hsplit, hw⟩ := h.exists_partner (brackets_append before ('[' :: behind))
  obtain ⟨inner, rest, rfl, hinner, hrest⟩ := List.filter_eq_append_iff.1 hsplit
  obtain ⟨comment, more, rfl, hcomment, -, -⟩ := List.filter_eq_cons_iff.1 hrest
  refine ⟨inner ++ comment, more, by simp, ?_⟩
  have hnone : brackets comment = [] := List.filter_eq_nil_iff.2 hcomment
  have hinner : brackets inner = w := hinner
  rwa [brackets_append, hnone, List.append_nil, hinner]

/-! ## 3. The stack and the text -/

/-- While there is a stack, no part of the text is overclosed. -/
theorem Pending.not_overclosed {text part : List Char} {loops : List OpenLoop}
    (h : Pending text loops) (hpart : part <+: text) : ¬ Overclosed part := by
  induction h generalizing part with
  | none hbalanced => exact hbalanced.not_overclosed hpart
  | @opened outer inner rest houter hinner ih =>
    obtain ⟨more, hmore⟩ := hpart
    have hall : ¬ Overclosed outer := ih (List.prefix_refl outer)
    rcases List.append_eq_append_iff.1 hmore with ⟨piece, rfl, -⟩ | ⟨piece, rfl, hpiece⟩
    · exact ih (List.prefix_append part piece)
    · cases piece with
      | nil => simpa using hall
      | cons c piece =>
        obtain ⟨rfl, rfl⟩ := List.cons_eq_cons.1 hpiece
        have hpart : ¬ Overclosed piece := hinner.not_overclosed (List.prefix_append piece more)
        unfold Overclosed at *
        simp only [List.count_append, List.count_cons]
        simp
        omega

/-- With an empty stack, the next closing bracket makes the text overclosed
for the first time. -/
theorem Pending.firstOverclosed {text before : List Char} (h : Pending before [])
    (hwithin : before ++ [']'] <+: text) : FirstOverclosed text before ']' := by
  have hbalanced : Balanced (brackets before) := by
    cases h with
    | none h => exact h
  refine ⟨hwithin, hbalanced.overclosed, ?_⟩
  intro part hpart hover
  have hbefore : before <+: text := (List.prefix_append before [']']).trans hwithin
  by_contra hshort
  rw [List.length_append, List.length_singleton] at hshort
  -- a shorter part is a part of the text before the bracket, which balances
  exact h.not_overclosed (List.prefix_of_prefix_length_le hpart hbefore (by omega)) hover

/-- An opening bracket with balanced text behind it is the last one that is
not matched. -/
theorem lastUnmatchedOpen_of_balanced (outer : List Char) {inner : List Char}
    (hinner : Balanced (brackets inner)) : LastUnmatchedOpen (outer ++ '[' :: inner) outer := by
  refine ⟨⟨⟨inner, by simp⟩, ?_⟩, ?_⟩
  · rintro before ⟨more, hmore⟩ ⟨middle, rfl, hmiddle⟩
    have hsplit : middle ++ [']'] <+: inner := by
      refine ⟨more, ?_⟩
      simpa using hmore
    exact hinner.not_overclosed hsplit hmiddle.overclosed
  · intro outer' hopen
    obtain ⟨behind, hbehind⟩ := hopen.opens
    by_contra hlonger
    -- a later opening bracket stands in the balanced text
    have hfirst : outer ++ ['['] <+: outer ++ '[' :: inner := ⟨inner, by simp⟩
    have hsecond : outer' <+: outer ++ '[' :: inner :=
      ⟨['['] ++ behind, by rw [← hbehind]; simp⟩
    have hle : (outer ++ ['[']).length ≤ outer'.length := by
      simp only [List.length_append, List.length_singleton]
      omega
    obtain ⟨piece, hpiece⟩ := List.prefix_of_prefix_length_le hfirst hsecond hle
    subst hpiece
    have hsplit : piece ++ '[' :: behind = inner := by simpa using hbehind
    rw [← hsplit] at hinner
    obtain ⟨inside, more, rfl, hinside⟩ := hinner.exists_close
    refine hopen.unmatched (outer ++ ['['] ++ piece ++ '[' :: inside) ?_ ⟨inside, rfl, hinside⟩
    exact ⟨more, by rw [← hbehind]; simp⟩

end Source

/-! ## 4. The reader's refusals -/

namespace Reader

variable {r r' : Reader} {passed : List Char} {c : Char} {e : ParseError}

/-- The reader refuses a character only if it closes a bracket and none is
open. -/
theorem refusal_of_feed (h : r.feed c = .error e) :
    c = ']' ∧ r.pending = [] ∧ e = ⟨.unmatchedClose, r.cursor⟩ := by
  have haccept : r.accept c = .error e := by
    cases ha : r.accept c with
    | error e' => simpa [Reader.feed, ha, bind, Except.bind] using h
    | ok r₁ => simp [Reader.feed, ha, bind, Except.bind, pure, Except.pure] at h
  unfold accept at haccept
  split at haccept
  · cases haccept
  · cases haccept
  · rename_i hop
    split at haccept
    · rename_i hpending
      cases haccept
      exact ⟨(Option.some.inj (Opcode.ofSymbol?_eq_some_iff.1 hop)).symm, hpending, rfl⟩
    · cases haccept
  · cases haccept

/-- Reading a text breaks off at the first closing bracket that finds the
stack empty. -/
theorem Reads.refusal_of_feed_all {text : List Char} (hr : r.Reads passed)
    (h : text.foldlM Reader.feed r = .error e) :
    ∃ before more, text = before ++ ']' :: more ∧ Source.Pending (passed ++ before) [] ∧
      e = ⟨.unmatchedClose, Source.placeBehind (passed ++ before)⟩ := by
  induction text generalizing r passed with
  | nil => cases h
  | cons c text ih =>
    rw [List.foldlM_cons] at h
    cases hfeed : r.feed c with
    | error e' =>
      rw [hfeed] at h
      obtain rfl : e' = e := by simpa [bind, Except.bind] using h
      obtain ⟨rfl, hpending, rfl⟩ := refusal_of_feed hfeed
      refine ⟨[], text, rfl, ?_, by simp [hr.cursor]⟩
      simpa [hpending] using hr.pending
    | ok r₁ =>
      rw [hfeed] at h
      obtain ⟨before, more, rfl, hpending, he⟩ := ih (hr.feed hfeed) h
      refine ⟨c :: before, more, rfl, ?_, ?_⟩
      · simpa using hpending
      · simpa using he

end Reader

namespace Source

/-- What can come of reading a text, and when. -/
theorem parseChars_cases (text : List Char) :
    (∃ before, FirstOverclosed text before ']' ∧
        parseChars text = .error ⟨.unmatchedClose, placeBehind before⟩) ∨
      (∀ part, part <+: text → ¬ Overclosed part) ∧
        (Balanced (brackets text) ∨ ∃ outer, LastUnmatchedOpen text outer ∧
          parseChars text = .error ⟨.unmatchedOpen, placeBehind outer⟩) := by
  unfold parseChars
  cases hfeed : text.foldlM Reader.feed {} with
  | error e =>
    obtain ⟨before, more, rfl, hpending, rfl⟩ := Reader.reads_start.refusal_of_feed_all hfeed
    rw [List.nil_append] at hpending
    exact .inl ⟨before, hpending.firstOverclosed ⟨more, by simp⟩, rfl⟩
  | ok r =>
    have hpending : Pending text r.pending := by
      simpa using (Reader.reads_start.feed_all hfeed).pending
    refine .inr ⟨fun part hpart => hpending.not_overclosed hpart, ?_⟩
    cases hloops : r.pending with
    | nil =>
      rw [hloops] at hpending
      cases hpending with
      | none hbalanced => exact .inl hbalanced
    | cons loop loops =>
      rw [hloops] at hpending
      cases hpending with
      | @opened outer inner _ houter hinner =>
        refine .inr ⟨outer, lastUnmatchedOpen_of_balanced outer hinner, ?_⟩
        simp [bind, Except.bind, Reader.finish, hloops]

/-- **The reader blames the right bracket.** A text whose brackets do not
balance is refused. If some part of it, from its start, closes more brackets
than it opens, the last character of the shortest such part is reported as
a bracket that closes nothing; otherwise the last opening bracket that is
not matched is reported as never closed. Each report gives the line and the
column of the bracket. -/
theorem parse_blames {text : String} (h : ¬ Balanced (brackets text.toList)) :
    ((∃ part, part <+: text.toList ∧ Overclosed part) →
      ∃ before c e, FirstOverclosed text.toList before c ∧ parse text = .error e ∧
        e.fault.message = "Unmatched ']'" ∧ e.position = placeBehind before) ∧
    ((∀ part, part <+: text.toList → ¬ Overclosed part) →
      ∃ outer e, LastUnmatchedOpen text.toList outer ∧ parse text = .error e ∧
        e.fault.message = "Unmatched '['" ∧ e.position = placeBehind outer) := by
  rcases parseChars_cases text.toList with ⟨before, hfirst, hparse⟩ |
    ⟨hnone, hbalanced | ⟨outer, hlast, hparse⟩⟩
  · refine ⟨fun _ => ⟨before, ']', _, hfirst, hparse, rfl, rfl⟩, fun hnone => ?_⟩
    exact absurd hfirst.overclosed (hnone _ hfirst.within)
  · exact absurd hbalanced h
  · refine ⟨?_, fun _ => ⟨outer, _, hlast, hparse, rfl, rfl⟩⟩
    rintro ⟨part, hpart, hover⟩
    exact absurd hover (hnone part hpart)

/-- A bracket that closes nothing on the second line, behind a character of
two bytes; and three loops of which only the innermost is closed. -/
theorem parse_blames_both :
    (∃ before c, FirstOverclosed "[+\né]]".toList before c ∧ placeBehind before = ⟨2, 3⟩ ∧
      parse "[+\né]]" = .error ⟨.unmatchedClose, ⟨2, 3⟩⟩) ∧
    ∃ outer, LastUnmatchedOpen "[[\n>[-]".toList outer ∧ placeBehind outer = ⟨1, 2⟩ ∧
      parse "[[\n>[-]" = .error ⟨.unmatchedOpen, ⟨1, 2⟩⟩ := by
  constructor
  · have hparse : parse "[+\né]]" = .error ⟨.unmatchedClose, ⟨2, 3⟩⟩ := by cbv
    have hover : Overclosed "[+\né]]".toList := by decide
    have hnot : ¬ Balanced (brackets "[+\né]]".toList) := fun h =>
      h.not_overclosed (List.prefix_refl _) hover
    obtain ⟨before, c, e, hfirst, he, -, hplace⟩ :=
      (parse_blames hnot).1 ⟨_, List.prefix_refl _, hover⟩
    obtain rfl : e = ⟨.unmatchedClose, ⟨2, 3⟩⟩ := Except.error.inj (he.symm.trans hparse)
    exact ⟨before, c, hfirst, hplace.symm, hparse⟩
  · have hparse : parse "[[\n>[-]" = .error ⟨.unmatchedOpen, ⟨1, 2⟩⟩ := by cbv
    have hnot : ¬ Balanced (brackets "[[\n>[-]".toList) := fun h =>
      absurd h.count_eq (by decide)
    have hnone : ∀ part ∈ "[[\n>[-]".toList.inits, ¬ Overclosed part := by decide
    obtain ⟨outer, e, hlast, he, -, hplace⟩ :=
      (parse_blames hnot).2 fun part hpart => hnone part ((List.mem_inits part _).2 hpart)
    obtain rfl : e = ⟨.unmatchedOpen, ⟨1, 2⟩⟩ := Except.error.inj (he.symm.trans hparse)
    exact ⟨outer, hlast, hplace.symm, hparse⟩

end Source

end TapeCompiler
