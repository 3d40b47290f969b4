/-
TapeCompiler.Proofs.SourceLabels — the stream of a source text is well-formed.

The reader keeps a stack of open loops, with labels that it counts up. The
walk of `Stream.enter` keeps a stack of open brackets. `Reader.Sound` says
that the two stacks are the same one all the time, and which labels were
given out. One character keeps this (`Reader.Sound.feed`), so a whole text
does, and a text that is accepted leaves nothing open.

The `k`-th opening bracket of a text has label `k`, so the labels of a
stream that was read are the numbers from 1 up to the count of these
brackets, each of them once.
-/
import TapeCompiler.Source
import TapeCompiler.Proofs.Blocks
import Mathlib.Data.List.Forall2
import Mathlib.Data.List.Nodup

namespace TapeCompiler

/-- The labels `1, …, count` in this order. -/
def Stream.firstLabels (count : Nat) : List Int := (List.range' 1 count).map Int.ofNat

namespace Stream

theorem firstLabels_succ (count : Nat) :
    firstLabels (count + 1) = firstLabels count ++ [(count + 1 : Int)] := by
  simp [firstLabels, List.range'_concat, Int.add_comm]

theorem firstLabels_nodup (count : Nat) : (firstLabels count).Nodup :=
  List.Nodup.map (fun _ _ h => Int.ofNat.inj h) List.nodup_range'

theorem mem_firstLabels {count : Nat} {label : Int} (h : label ∈ firstLabels count) :
    1 ≤ label ∧ label ≤ count := by
  simp only [firstLabels, List.mem_map, List.mem_range'_1] at h
  obtain ⟨k, hk, rfl⟩ := h
  simp only [Int.ofNat_eq_natCast]
  omega

end Stream

namespace Reader

/-! ## 1. What a character can do -/

/-- One character either adds nothing, or opens a loop with the next label,
or closes the innermost one, or adds an instruction that is no bracket. -/
theorem accept_cases {r r' : Reader} {c : Char} (h : r.accept c = .ok r') :
    (c ≠ '[' ∧ r' = r) ∨
    (c = '[' ∧ r' = { r.push .loopStart (r.loops + 1) with
      loops := r.loops + 1, pending := ⟨r.loops + 1, r.cursor⟩ :: r.pending }) ∨
    (∃ opened rest, c ≠ '[' ∧ r.pending = opened :: rest ∧
      r' = { r.push .loopEnd opened.label with pending := rest }) ∨
    ∃ opcode, c ≠ '[' ∧ opcode.opensBlock = false ∧ opcode.closesBlock = false ∧
      r' = r.push opcode 1 := by
  have hother {opcode : Opcode} (hop : Opcode.ofSymbol? c = some opcode)
      (hne : opcode ≠ .loopStart) : c ≠ '[' := by
    rintro rfl
    exact hne (Option.some.inj hop).symm
  unfold accept at h
  split at h
  · rename_i hop
    cases h
    exact .inl ⟨fun hc => by simp [hc, Opcode.ofSymbol?] at hop, rfl⟩
  · rename_i hop
    cases h
    have hc : some '[' = some c := Opcode.ofSymbol?_eq_some_iff.1 hop
    exact .inr (.inl ⟨(Option.some.inj hc).symm, rfl⟩)
  · rename_i hop
    split at h
    · cases h
    · rename_i opened rest hpending
      cases h
      exact .inr (.inr (.inl ⟨opened, rest, hother hop (by simp), hpending, rfl⟩))
  · rename_i opcode hstart hend hop
    cases h
    -- the two brackets without a symbol are never read
    have hsymbol := Opcode.ofSymbol?_eq_some_iff.1 hop
    refine .inr (.inr (.inr ⟨opcode, hother hop hstart, ?_, ?_, rfl⟩))
    · cases opcode <;> simp_all [Opcode.opensBlock, Opcode.symbol?]
    · cases opcode <;> simp_all [Opcode.closesBlock, Opcode.symbol?]

theorem toList_push (r : Reader) (opcode : Opcode) (value : Nat) :
    (r.push opcode value).code.toList = r.code.toList ++ [⟨opcode, value, 0, some r.cursor⟩] := by
  simp [push]

/-! ## 2. The two stacks -/

/-- The bracket that the walk over the stream has open for a loop that the
reader has open. -/
def Opens (start : Instruction) (opened : OpenLoop) : Prop :=
  start.opcode = .loopStart ∧ start.value = opened.label

/-- What the reader knows, after it has read these characters, is true. -/
structure Sound (r : Reader) (passed : List Char) : Prop where
  nested : ∃ opened, r.code.toList.foldlM Stream.enter [] = some opened ∧
    List.Forall₂ Opens opened r.pending
  labels : Stream.labels r.code.toList = Stream.firstLabels r.loops
  loops : r.loops = passed.count '['

theorem sound_start : Sound {} [] :=
  ⟨⟨[], rfl, .nil⟩, rfl, rfl⟩

/-- The walk over the stream makes the same move as the reader. -/
theorem enter_push {r : Reader} {opcode : Opcode} {value : Nat} {opened opened' : List Instruction}
    (h : r.code.toList.foldlM Stream.enter [] = some opened)
    (he : Stream.enter opened ⟨opcode, value, 0, some r.cursor⟩ = some opened') :
    (r.push opcode value).code.toList.foldlM Stream.enter [] = some opened' := by
  rw [toList_push, List.foldlM_append, h]
  simpa using he

theorem labels_push_of_not_opens {r : Reader} {opcode : Opcode} (value : Nat)
    (h : opcode.opensBlock = false) :
    Stream.labels (r.push opcode value).code.toList = Stream.labels r.code.toList := by
  rw [toList_push, Stream.labels_append, Stream.labels_cons_of_not_opens h]
  simp

theorem Sound.accept {r r' : Reader} {passed : List Char} {c : Char} (hr : r.Sound passed)
    (h : r.accept c = .ok r') : r'.Sound (passed ++ [c]) := by
  obtain ⟨⟨opened, hwalk, hstacks⟩, hlabels, hloops⟩ := hr
  have hcount (hc : c ≠ '[') : (passed ++ [c]).count '[' = passed.count '[' := by
    simp [List.count_append, hc]
  rcases accept_cases h with ⟨hc, rfl⟩ | ⟨rfl, rfl⟩ | ⟨loop, rest, hc, hpending, rfl⟩ |
    ⟨opcode, hc, hopen, hclose, rfl⟩
  · exact ⟨⟨opened, hwalk, hstacks⟩, hlabels, by rw [hcount hc, hloops]⟩
  · refine ⟨⟨_, enter_push hwalk rfl, .cons ⟨rfl, rfl⟩ hstacks⟩, ?_, ?_⟩
    · have hstart : Opcode.loopStart.opensBlock = true := rfl
      simp only [toList_push, Stream.labels_append, hlabels, Stream.firstLabels_succ,
        Stream.labels_cons_of_opens (i := ⟨.loopStart, _, 0, some r.cursor⟩) hstart,
        Stream.labels_nil]
      rfl
    · simp [List.count_append, hloops]
  · rw [hpending] at hstacks
    cases hstacks with
    | @cons start _ outer _ hopens hrest =>
      have hcloses : Instruction.Closes ⟨.loopEnd, loop.label, 0, some r.cursor⟩ start :=
        ⟨by simp [hopens.1, Opcode.closer?], hopens.2⟩
      refine ⟨⟨outer, enter_push hwalk ?_, hrest⟩, ?_, ?_⟩
      · simp [Stream.enter, hcloses.not_opens, hcloses.closes, hcloses]
      · exact (labels_push_of_not_opens _ rfl).trans hlabels
      · rw [hcount hc, ← hloops]
        rfl
  · refine ⟨⟨opened, enter_push hwalk ?_, hstacks⟩, ?_, ?_⟩
    · simp [Stream.enter, hopen, hclose]
    · exact (labels_push_of_not_opens _ hopen).trans hlabels
    · rw [hcount hc, ← hloops]
      rfl

/-- One character keeps the reader sound. -/
theorem Sound.feed {r r' : Reader} {passed : List Char} {c : Char} (hr : r.Sound passed)
    (h : r.feed c = .ok r') : r'.Sound (passed ++ [c]) := by
  obtain ⟨r₁, haccept, h⟩ := bind_eq_ok_iff.1 h
  cases h
  obtain ⟨hnested, hlabels, hloops⟩ := hr.accept haccept
  exact ⟨hnested, hlabels, hloops⟩

/-- A text keeps the reader sound. -/
theorem Sound.feed_all {r r' : Reader} {passed text : List Char} (hr : r.Sound passed)
    (h : text.foldlM Reader.feed r = .ok r') : r'.Sound (passed ++ text) := by
  induction text generalizing r passed with
  | nil =>
    cases h
    simpa using hr
  | cons c text ih =>
    rw [List.foldlM_cons] at h
    obtain ⟨r₁, hfeed, h⟩ := bind_eq_ok_iff.1 h
    simpa using ih (hr.feed hfeed) h

end Reader

/-! ## 3. Whole texts -/

/-- **The stream of a text that parses** is well-formed, and its labels are
the numbers of the text's opening brackets. -/
theorem Source.wellFormed_of_parse {text : String} {code : List Instruction}
    (h : Source.parse text = .ok code) :
    Stream.WellFormed code ∧
      Stream.labels code = Stream.firstLabels (text.toList.count '[') := by
  obtain ⟨r, hfeed, hfinish⟩ := bind_eq_ok_iff.1 h
  obtain ⟨⟨opened, hwalk, hstacks⟩, hlabels, hloops⟩ := Reader.sound_start.feed_all hfeed
  rw [hloops, List.nil_append] at hlabels
  unfold Reader.finish at hfinish
  split at hfinish
  · rename_i hpending
    cases hfinish
    rw [hpending] at hstacks
    cases hstacks
    refine ⟨⟨hwalk, ?_⟩, hlabels⟩
    rw [hlabels]
    exact Stream.firstLabels_nodup _
  · cases hfinish

end TapeCompiler
