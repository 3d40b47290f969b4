/-
TapeCompiler.Proofs.MergeCanonical — merging to the end has one result.

A single pass groups greedily from the left and takes in one opposite
neighbour only, so what it writes depends on where the stream starts. What
the passes come to in the end does not. It is described here without any
pass, in the way in which an element of a free product is described by its
reduced word.

* A stream is spelled in letters (`Instruction.letter`). A letter is an
  amount of one of four quantities, or an instruction that is not counted.
  `add` and `sub` are amounts of the same quantity with opposite signs.
* A `Word` is a spelling in which no two neighbours count the same, and no
  step is by nothing. Reads and writes have no opposites, so for them a
  count of zero is a letter like any other.
* Streams act on words: `Stream.onto` puts a stream before a word, letter by
  letter. Here is the point of the words: amounts of one quantity, put one
  after the other, do what their sum does (`Word.put_put`).

A pass keeps the action (`Stream.onto_of_merge`), and a merged stream is
spelled by the word that it makes of nothing (`Stream.onto_of_merged`). So
the word of a stream determines what merging to the end gives.
-/
import TapeCompiler.Proofs.MergeFixpoint

namespace TapeCompiler

/-! ## 1. Quantities -/

/-- What the counted instructions count. -/
inductive Quantity where
  | cell
  | pointer
  | output
  | input
  deriving DecidableEq, Repr

/-- The quantity can be counted backwards, so an amount of zero is nothing. -/
def Quantity.cancels : Quantity → Bool
  | cell | pointer => true
  | output | input => false

namespace Opcode

/-- The quantity that an opcode counts. -/
def quantity? : Opcode → Option Quantity
  | .add | .sub => some .cell
  | .right | .left => some .pointer
  | .write => some .output
  | .read => some .input
  | _ => none

/-- The direction in which an opcode counts. -/
def sign : Opcode → Int
  | .sub | .left => -1
  | _ => 1

variable {op op' : Opcode} {q : Quantity}

theorem isSome_quantity (op : Opcode) : op.quantity?.isSome = op.isCounted := by
  cases op <;> rfl

theorem exists_quantity (h : op.isCounted = true) : ∃ q, op.quantity? = some q :=
  Option.isSome_iff_exists.1 (op.isSome_quantity.trans h)

theorem quantity_eq_none (h : op.isCounted = false) : op.quantity? = none :=
  Option.isSome_eq_false_iff.1 (op.isSome_quantity.trans h) |> Option.isNone_iff_eq_none.1

/-- Opposites count the same quantity in opposite directions. -/
theorem quantity_of_opposite (h : op.opposite? = some op') :
    ∃ q, op.quantity? = some q ∧ op'.quantity? = some q ∧ op'.sign = -op.sign := by
  cases op <;> simp only [opposite?, Option.some.injEq, reduceCtorEq] at h <;> subst h <;>
    exact ⟨_, rfl, rfl, rfl⟩

theorem cancels_iff (h : op.quantity? = some q) :
    q.cancels = true ↔ op.opposite? ≠ none := by
  cases op <;> simp only [quantity?, Option.some.injEq, reduceCtorEq] at h <;> subst h <;>
    simp [Quantity.cancels, opposite?]

theorem eq_or_opposite (h : op.quantity? = some q) (h' : op'.quantity? = some q) :
    op' = op ∨ op.opposite? = some op' := by
  cases op <;> simp only [quantity?, Option.some.injEq, reduceCtorEq] at h <;> subst h <;>
    cases op' <;> simp [quantity?] at h' <;> simp [opposite?]

end Opcode

/-! ## 2. Letters -/

/-- A letter of a stream. -/
inductive Letter where
  /-- So much of a quantity. -/
  | amount (q : Quantity) (n : Int)
  /-- An instruction that is not counted. -/
  | other (i : Instruction)
  deriving DecidableEq, Repr

namespace Instruction

/-- The letter that an instruction is. Offset and position of a counted
instruction are no part of it. -/
def letter (i : Instruction) : Letter :=
  match i.opcode.quantity? with
  | some q => .amount q (i.opcode.sign * i.value)
  | none => .other i

/-- The instruction without what merging leaves open: the offset and the
position of a counted instruction. -/
def essence (i : Instruction) : Instruction :=
  if i.opcode.isCounted then ⟨i.opcode, i.value, 0, none⟩ else i

variable {i j : Instruction} {q : Quantity}

theorem letter_eq (h : i.opcode.quantity? = some q) :
    i.letter = .amount q (i.opcode.sign * i.value) := by
  simp only [letter, h]

theorem letter_of_not_counted (h : i.opcode.isCounted = false) : i.letter = .other i := by
  simp only [letter, Opcode.quantity_eq_none h]

theorem quantity_of_letter {n : Int} (h : i.letter = .amount q n) :
    i.opcode.quantity? = some q ∧ i.opcode.sign * i.value = n := by
  unfold letter at h
  split at h
  · rename_i q' hq
    cases h
    exact ⟨hq, rfl⟩
  · cases h

end Instruction

/-- The instruction that a letter amounts to. -/
def Letter.instruction : Letter → Instruction
  | amount .cell n => if 0 < n then ⟨.add, n, 0, none⟩ else ⟨.sub, -n, 0, none⟩
  | amount .pointer n => if 0 < n then ⟨.right, n, 0, none⟩ else ⟨.left, -n, 0, none⟩
  | amount .output n => ⟨.write, n, 0, none⟩
  | amount .input n => ⟨.read, n, 0, none⟩
  | other i => i

/-- The letter of an instruction that counts upwards tells its opcode and
its value. -/
theorem Instruction.instruction_letter {i : Instruction}
    (h : i.opcode.opposite? ≠ none → 0 < i.value) : i.letter.instruction = i.essence := by
  cases hi : i.opcode <;>
    simp_all [letter, Letter.instruction, essence, Opcode.quantity?, Opcode.sign,
      Opcode.opposite?, Opcode.isCounted]
  all_goals omega

/-! ## 3. Words -/

namespace Letter

/-- How much of a quantity stands at the front of a spelling, and what is
behind it. -/
def front (q : Quantity) : List Letter → Int × List Letter
  | .amount q' n :: w => if q' = q then (n, w) else (0, .amount q' n :: w)
  | w => (0, w)

/-- An amount before a spelling, unless it is nothing. -/
def keep (q : Quantity) (n : Int) (w : List Letter) : List Letter :=
  if q.cancels ∧ n = 0 then w else .amount q n :: w

/-- A letter before a spelling. It is merged with the amount at the front,
if that is of the same quantity. -/
def onto (l : Letter) (w : List Letter) : List Letter :=
  match l with
  | .amount q n => keep q (n + (front q w).1) (front q w).2
  | .other i => .other i :: w

/-- Spellings with nothing left to merge: neighbours are of different
quantities, and no amount is nothing. -/
inductive Reduced : List Letter → Prop where
  | nil : Reduced []
  | other (i : Instruction) {w : List Letter} (h : Reduced w) : Reduced (.other i :: w)
  | amount {q : Quantity} {n : Int} {w : List Letter} (lasting : q.cancels = true → n ≠ 0)
      (apart : front q w = (0, w)) (h : Reduced w) : Reduced (.amount q n :: w)

theorem front_amount (q : Quantity) (n : Int) (w : List Letter) :
    front q (.amount q n :: w) = (n, w) := by
  simp [front]

theorem front_other (q : Quantity) (i : Instruction) (w : List Letter) :
    front q (.other i :: w) = (0, .other i :: w) := rfl

namespace Reduced

variable {w : List Letter}

/-- What stands behind the front is reduced, and has no more of the same
quantity at its own front. -/
theorem front (h : Reduced w) (q : Quantity) :
    Reduced (front q w).2 ∧ Letter.front q (Letter.front q w).2 = (0, (Letter.front q w).2) := by
  cases h with
  | nil => exact ⟨.nil, rfl⟩
  | other i h => exact ⟨.other i h, rfl⟩
  | @amount q' n w lasting apart h =>
    by_cases hq : q' = q
    · subst hq
      rw [front_amount]
      exact ⟨h, apart⟩
    · have hfront : Letter.front q (.amount q' n :: w) = (0, .amount q' n :: w) := by
        simp [Letter.front, hq]
      rw [hfront]
      exact ⟨.amount lasting apart h, hfront⟩

theorem tail {l : Letter} (h : Reduced (l :: w)) : Reduced w := by
  cases h with
  | other i h => exact h
  | amount lasting apart h => exact h

theorem onto (h : Reduced w) (l : Letter) : Reduced (l.onto w) := by
  cases l with
  | other i => exact .other i h
  | amount q n =>
    obtain ⟨hbehind, hapart⟩ := h.front q
    simp only [Letter.onto, keep]
    split
    · exact hbehind
    · rename_i hkeep
      exact .amount (fun hcancels hzero => hkeep ⟨hcancels, hzero⟩) hapart hbehind

/-- A letter goes before a reduced spelling as it is, if the result is
reduced. -/
theorem onto_eq {l : Letter} (h : Reduced (l :: w)) : l.onto w = l :: w := by
  cases h with
  | other i h => rfl
  | @amount q n w lasting apart h =>
    have hkeep : ¬ (q.cancels = true ∧ n = 0) := fun hzero => lasting hzero.1 hzero.2
    simp only [Letter.onto, apart, Int.add_zero, keep, hkeep, if_false]

end Reduced

end Letter

/-- A reduced spelling. -/
structure Word where
  letters : List Letter
  reduced : Letter.Reduced letters

namespace Word

/-- The word of nothing. -/
def empty : Word := ⟨[], .nil⟩

/-- A letter before a word. -/
def put (w : Word) (l : Letter) : Word := ⟨l.onto w.letters, w.reduced.onto l⟩

@[simp] theorem letters_put (w : Word) (l : Letter) : (w.put l).letters = l.onto w.letters := rfl

theorem ext_letters {w w' : Word} (h : w.letters = w'.letters) : w = w' := by
  cases w
  cases w'
  cases h
  rfl

/-- What stands at the front of a word after an amount was put before it. -/
theorem front_put (w : Word) (q : Quantity) (n : Int) :
    Letter.front q (w.put (.amount q n)).letters =
      (n + (Letter.front q w.letters).1, (Letter.front q w.letters).2) := by
  obtain ⟨-, hapart⟩ := w.reduced.front q
  simp only [letters_put, Letter.onto, Letter.keep]
  split
  · rename_i hzero
    -- the amounts cancel, and what comes to the front is of another quantity
    rw [hapart, hzero.2]
  · exact Letter.front_amount q _ _

/-- **Amounts add up.** Two amounts of a quantity, one put before the other,
do what their sum does. -/
theorem put_put (w : Word) (q : Quantity) (n m : Int) :
    (w.put (.amount q m)).put (.amount q n) = w.put (.amount q (n + m)) := by
  apply ext_letters
  show Letter.onto (.amount q n) (w.put (.amount q m)).letters =
    Letter.onto (.amount q (n + m)) w.letters
  simp only [Letter.onto, front_put, Int.add_assoc]

/-- Nothing of a quantity that cancels does nothing. -/
theorem put_zero (w : Word) {q : Quantity} (h : q.cancels = true) :
    w.put (.amount q 0) = w := by
  apply ext_letters
  obtain ⟨letters, hreduced⟩ := w
  show Letter.keep q (0 + (Letter.front q letters).1) (Letter.front q letters).2 = letters
  rw [Int.zero_add]
  cases hreduced with
  | nil => simp [Letter.front, Letter.keep, h]
  | other i _ => simp [Letter.front_other, Letter.keep, h]
  | @amount q' n w lasting apart _ =>
    by_cases hq : q' = q
    · subst hq
      simp [Letter.front_amount, Letter.keep, lasting h]
    · simp [Letter.front, Letter.keep, hq, h]

end Word

/-! ## 4. Streams act on words -/

namespace Stream

/-- The word that a stream makes of the word behind it. -/
def onto (code : List Instruction) (w : Word) : Word :=
  code.foldr (fun i w => w.put i.letter) w

@[simp] theorem onto_nil (w : Word) : onto [] w = w := rfl

@[simp] theorem onto_cons (i : Instruction) (code : List Instruction) (w : Word) :
    onto (i :: code) w = (onto code w).put i.letter := rfl

@[simp] theorem onto_append (code code' : List Instruction) (w : Word) :
    onto (code ++ code') w = onto code (onto code' w) := by
  simp [onto]

variable {i j : Instruction}

/-- Joining neighbours keeps the action. -/
theorem onto_join (hi : i.opcode.isCounted = true) (h : j.opcode = i.opcode) (w : Word) :
    onto [i, j] w = onto [{ i with value := i.value + j.value }] w := by
  obtain ⟨q, hq⟩ := Opcode.exists_quantity hi
  have hj : j.opcode.quantity? = some q := h ▸ hq
  have hsum : ({ i with value := i.value + j.value } : Instruction).letter =
      .amount q (i.opcode.sign * i.value + j.opcode.sign * j.value) := by
    rw [Instruction.letter_eq (i := { i with value := i.value + j.value }) hq, h, Int.mul_add]
  simp only [onto_cons, onto_nil, Instruction.letter_eq hq, Instruction.letter_eq hj, hsum,
    Word.put_put]

/-- So does taking off a neighbour that undoes. -/
theorem onto_cancel (h : i.opcode.opposite? = some j.opcode) (w : Word) :
    onto [i, j] w = onto [{ i with value := i.value - j.value }] w := by
  obtain ⟨q, hq, hj, hsign⟩ := Opcode.quantity_of_opposite h
  have hrest : ({ i with value := i.value - j.value } : Instruction).letter =
      .amount q (i.opcode.sign * i.value + j.opcode.sign * j.value) := by
    rw [Instruction.letter_eq (i := { i with value := i.value - j.value }) hq, hsign, Int.mul_sub,
      Int.neg_mul, Int.sub_eq_add_neg]
  simp only [onto_cons, onto_nil, Instruction.letter_eq hq, Instruction.letter_eq hj, hrest,
    Word.put_put]

/-- So does turning a step into its opposite. -/
theorem onto_turn {op : Opcode} (h : i.opcode.opposite? = some op) (w : Word) :
    onto [i] w = onto [{ i with opcode := op, value := -i.value }] w := by
  obtain ⟨q, hq, hop, hsign⟩ := Opcode.quantity_of_opposite h
  have hturn : ({ i with opcode := op, value := -i.value } : Instruction).letter =
      .amount q (i.opcode.sign * i.value) := by
    rw [Instruction.letter_eq (i := { i with opcode := op, value := -i.value }) hop, hsign,
      Int.neg_mul_neg]
  simp only [onto_cons, onto_nil, Instruction.letter_eq hq, hturn]

/-- So does dropping a step by nothing. -/
theorem onto_drop {op : Opcode} (h : i.opcode.opposite? = some op) (hzero : i.value = 0)
    (w : Word) : onto [i] w = w := by
  obtain ⟨q, hq, -, -⟩ := Opcode.quantity_of_opposite h
  have hcancels : q.cancels = true := (Opcode.cancels_iff hq).2 (by simp [h])
  rw [onto_cons, onto_nil, Instruction.letter_eq hq, hzero, Int.mul_zero, w.put_zero hcancels]

end Stream

/-! ## 5. A pass keeps the action -/

theorem Run.onto_of_total {r : Run} {i? : Option Instruction} (h : r.total = .ok i?) (w : Word) :
    Stream.onto i?.toList w = Stream.onto [r.step] w := by
  unfold total at h
  split at h
  · cases h
    rfl
  rename_i op hop
  split at h
  · cases h
    rfl
  split at h
  · obtain ⟨count, hneg, h⟩ := bind_eq_ok_iff.1 h
    obtain ⟨-, rfl⟩ := Operand.checked_eq_ok_iff.1 hneg
    cases h
    exact (Stream.onto_turn (i := r.step) hop w).symm
  · rename_i hpos hneg
    cases h
    have hzero : r.count = 0 := by omega
    exact (Stream.onto_drop (i := r.step) hop hzero w).symm

namespace Merging

/-- All that a pass has so far, the run under way included. -/
def contents (m : Merging) : List Instruction := m.output.toList ++ m.pending

theorem onto_of_flush {m : Merging} {output : Array Instruction} (h : m.flush = .ok output)
    (w : Word) : Stream.onto output.toList w = Stream.onto m.contents w := by
  obtain ⟨written, run⟩ := m
  cases run with
  | none =>
    cases h
    simp [contents, pending]
  | some r =>
    obtain ⟨i?, htotal, h⟩ := bind_eq_ok_iff.1 h
    have hrun := Run.onto_of_total htotal w
    have houtput : output.toList = written.toList ++ i?.toList := by
      cases i? <;> cases h <;> simp
    rw [houtput, Stream.onto_append, hrun]
    simp [contents, pending]

theorem contents_start (output : Array Instruction) (i : Instruction) :
    (start output i).contents = output.toList ++ [i] := by
  unfold start
  split <;> simp [contents, pending, Run.step]

/-- One more instruction does to a word what it would do by itself, before
all that the pass has. -/
theorem onto_feed {m m' : Merging} {i : Instruction} (hm : m.Counted) (h : m.feed i = .ok m')
    (w : Word) : Stream.onto m'.contents w = Stream.onto (m.contents ++ [i]) w := by
  rcases feed_cases h with ⟨output, hflush, rfl⟩ | ⟨r, hr, hsame, -, rfl⟩ |
    ⟨r, output, hr, hopposite, hflush, rfl⟩
  · rw [contents_start, Stream.onto_append, Stream.onto_append, onto_of_flush hflush]
  · have hjoin := Stream.onto_join (i := r.step) (j := i) (hm.run hr) hsame w
    have hboth : m.contents ++ [i] = m.output.toList ++ [r.step, i] := by
      simp [contents, pending, hr]
    rw [hboth, Stream.onto_append, hjoin, ← Stream.onto_append]
    rfl
  · have hcancel := Stream.onto_cancel (i := r.step) (j := i) hopposite w
    have hboth : m.contents ++ [i] = m.output.toList ++ [r.step, i] := by
      simp [contents, pending, hr]
    rw [hboth, Stream.onto_append, hcancel, ← Stream.onto_append]
    show Stream.onto (output.toList ++ []) w = _
    rw [List.append_nil, onto_of_flush hflush]
    rfl

theorem onto_foldlM {code : List Instruction} {m m' : Merging} (hm : m.Counted)
    (h : code.foldlM feed m = .ok m') (w : Word) :
    Stream.onto m'.contents w = Stream.onto (m.contents ++ code) w := by
  induction code generalizing m with
  | nil =>
    cases h
    rw [List.append_nil]
  | cons i code ih =>
    obtain ⟨m₁, hfeed, h⟩ := bind_eq_ok_iff.1 h
    have hrest := ih (hm.feed hfeed) h
    rw [hrest, Stream.onto_append, onto_feed hm hfeed, ← Stream.onto_append, List.append_assoc]
    rfl

end Merging

namespace Stream

variable {code code' : List Instruction}

theorem onto_of_merge (h : merge code = .ok code') (w : Word) : onto code' w = onto code w := by
  obtain ⟨m, hfold, h⟩ := bind_eq_ok_iff.1 h
  obtain ⟨output, hflush, h⟩ := bind_eq_ok_iff.1 h
  cases h
  have hrun := Merging.onto_foldlM (.of_none _) hfold w
  rw [Merging.onto_of_flush hflush, hrun]
  simp [Merging.contents, Merging.pending]

theorem onto_of_mergeOn {passes : Nat} (h : mergeOn passes code = .ok code') (w : Word) :
    onto code' w = onto code w := by
  fun_induction mergeOn passes code with
  | case1 => cases h
  | case2 => cases h
  | case3 passes code next hmerge _ _ _ ih => rw [ih h, onto_of_merge hmerge]
  | case4 =>
    cases h
    rfl

/-- Merging to the end keeps the action too. -/
theorem onto_of_mergeAll (h : mergeAll code = .ok code') (w : Word) :
    onto code' w = onto code w := by
  obtain ⟨next, hmerge, h⟩ := bind_eq_ok_iff.1 h
  rw [onto_of_mergeOn h, onto_of_merge hmerge]

/-! ## 6. Merged streams are spelled by their words -/

theorem reduced_of_merged (h : Merged code) : Letter.Reduced (code.map Instruction.letter) := by
  induction code with
  | nil => exact .nil
  | cons i code ih =>
    have hrest := ih ⟨fun j hj => h.upwards j (List.mem_cons_of_mem _ hj), h.apart.tail⟩
    rw [List.map_cons]
    by_cases hi : i.opcode.isCounted = true
    · obtain ⟨q, hq⟩ := Opcode.exists_quantity hi
      rw [Instruction.letter_eq hq]
      refine .amount (fun hcancels hzero => ?_) ?_ hrest
      · have hpos := h.upwards i (List.mem_cons_self ..) ((Opcode.cancels_iff hq).1 hcancels)
        have hsign : i.opcode.sign = 1 ∨ i.opcode.sign = -1 := by
          cases i.opcode <;> decide
        rcases hsign with hs | hs <;> rw [hs] at hzero <;> omega
      · cases code with
        | nil => rfl
        | cons j code =>
          -- a neighbour of the same quantity would merge
          cases hj : j.letter with
          | other k => rw [List.map_cons, hj, Letter.front_other]
          | amount q' n =>
            have hne : q' ≠ q := by
              rintro rfl
              have hj' := (Instruction.quantity_of_letter hj).1
              refine (List.isChain_cons_cons.1 h.apart).1 ?_
              exact (Opcode.eq_or_opposite hq hj').imp_left fun hsame => ⟨hi, hsame⟩
            simp [hj, Letter.front, hne]
    · rw [Instruction.letter_of_not_counted (by simpa using hi)]
      exact .other i hrest

theorem onto_of_merged (h : Merged code) :
    (onto code .empty).letters = code.map Instruction.letter := by
  have hreduced := reduced_of_merged h
  clear h
  induction code with
  | nil => rfl
  | cons i code ih =>
    rw [onto_cons, Word.letters_put, ih hreduced.tail, List.map_cons]
    exact hreduced.onto_eq

/-- **What merging to the end comes to** is told by the word of the stream,
up to the offsets and positions of counted instructions. -/
theorem essence_of_mergeAll (h : mergeAll code = .ok code') :
    code'.map Instruction.essence = (onto code .empty).letters.map Letter.instruction := by
  have hmerged := merged_of_mergeAll h
  rw [← onto_of_mergeAll h, onto_of_merged hmerged, List.map_map]
  refine List.map_congr_left fun i hi => ?_
  exact (Instruction.instruction_letter (hmerged.upwards i hi)).symm

end Stream

/-! ## 7. Merging piece by piece -/

/-- The same opcode and the same value, and the very same instruction unless
it is a counted one. -/
def Instruction.Agrees (i j : Instruction) : Prop :=
  i.opcode = j.opcode ∧ i.value = j.value ∧ (i.opcode.isCounted = false → i = j)

theorem Instruction.agrees_of_essence {i j : Instruction} (h : i.essence = j.essence) :
    i.Agrees j := by
  have hop : i.opcode = j.opcode := by
    have hop := congrArg Instruction.opcode h
    unfold essence at hop
    split at hop <;> split at hop <;> exact hop
  unfold essence at h
  rw [hop] at h
  split at h
  · rename_i hcounted
    have hvalue : i.value = j.value := by simpa using h
    refine ⟨hop, hvalue, fun hnot => ?_⟩
    rw [hop, hcounted] at hnot
    cases hnot
  · subst h
    exact ⟨rfl, rfl, fun _ => rfl⟩

namespace Stream

/-- **Merging is canonical.** Two streams whose operands together stay below
`2 ^ 63` are merged to the end as one, or each by itself and then what came
of them. The results agree: they have the same opcodes and the same values
in the same order, and all that is not counted is the same instruction. All
four runs succeed, unless the streams are long enough for the tally of the
passes to overflow. -/
theorem mergeAll_of_pieces {a b : List Instruction} (h : weight a + weight b < 2 ^ 63) :
    (∀ a' b' whole pieces, mergeAll a = .ok a' → mergeAll b = .ok b' →
        mergeAll (a ++ b) = .ok whole → mergeAll (a' ++ b') = .ok pieces →
        List.Forall₂ Instruction.Agrees whole pieces) ∧
      (a.length + b.length < Tally.greatest →
        ∃ a' b' whole pieces, mergeAll a = .ok a' ∧ mergeAll b = .ok b' ∧
          mergeAll (a ++ b) = .ok whole ∧ mergeAll (a' ++ b') = .ok pieces) := by
  have hcounts : counts a + counts b < 2 ^ 63 :=
    Nat.lt_of_le_of_lt (Nat.add_le_add (counts_le_weight a) (counts_le_weight b)) h
  have hfits : counts a < 2 ^ 63 ∧ counts b < 2 ^ 63 := by omega
  constructor
  · intro a' b' whole pieces ha hb hwhole hpieces
    have hwords : onto (a' ++ b') .empty = onto (a ++ b) .empty := by
      rw [onto_append, onto_append, onto_of_mergeAll ha, onto_of_mergeAll hb]
    have hessence : whole.map Instruction.essence = pieces.map Instruction.essence := by
      rw [essence_of_mergeAll hwhole, essence_of_mergeAll hpieces, hwords]
    have hequal : List.Forall₂ (· = ·) (whole.map Instruction.essence)
        (pieces.map Instruction.essence) := List.forall₂_eq_eq_eq ▸ hessence
    rw [List.forall₂_map_left_iff, List.forall₂_map_right_iff] at hequal
    exact hequal.imp fun i j hij => Instruction.agrees_of_essence hij
  · intro hlength
    obtain ⟨a', ha⟩ := exists_mergeAll_of_length hfits.1 (by omega)
    obtain ⟨b', hb⟩ := exists_mergeAll_of_length hfits.2 (by omega)
    have hwholefits : counts (a ++ b) < 2 ^ 63 := by rwa [counts_append]
    obtain ⟨whole, hwhole⟩ := exists_mergeAll_of_length hwholefits (by rwa [List.length_append])
    have hlea := counts_le_of_mergeAll hfits.1 ha
    have hleb := counts_le_of_mergeAll hfits.2 hb
    have hshortera := length_le_of_mergeAll ha
    have hshorterb := length_le_of_mergeAll hb
    have hpiecesfit : counts (a' ++ b') < 2 ^ 63 := by
      rw [counts_append]
      omega
    obtain ⟨pieces, hpieces⟩ := exists_mergeAll_of_length hpiecesfit
      (by rw [List.length_append]; omega)
    exact ⟨a', b', whole, pieces, ha, hb, hwhole, hpieces⟩

/-- The cut separates a move from the one that undoes it. Behind the cut, a
step is turned and merged across it, reads add up to a count below zero, and
a product stays as it is. -/
theorem mergeAll_of_pieces_cut :
    let a : List Instruction := [⟨.add, 2, 0, some ⟨1, 1⟩⟩, ⟨.right, 1, 0, none⟩]
    let b : List Instruction := [⟨.left, 1, 0, none⟩, ⟨.sub, 5, 0, none⟩, ⟨.add, 1, 0, none⟩,
      ⟨.read, 0, 0, none⟩, ⟨.read, -1, 0, none⟩, ⟨.mul, 3, 7, some ⟨1, 9⟩⟩]
    let whole : List Instruction :=
      [⟨.sub, 2, 0, some ⟨1, 1⟩⟩, ⟨.read, -1, 0, none⟩, ⟨.mul, 3, 7, some ⟨1, 9⟩⟩]
    weight a + weight b < 2 ^ 63 ∧ mergeAll (a ++ b) = .ok whole ∧
      ∃ a' b' pieces, mergeAll a = .ok a' ∧ mergeAll b = .ok b' ∧
        mergeAll (a' ++ b') = .ok pieces ∧ List.Forall₂ Instruction.Agrees whole pieces := by
  intro a b whole
  have hweight : weight a + weight b < 2 ^ 63 := by decide
  have hresult : mergeAll (a ++ b) = .ok whole := by cbv
  obtain ⟨hagree, hexists⟩ := mergeAll_of_pieces hweight
  obtain ⟨a', b', whole', pieces, ha, hb, hwhole, hpieces⟩ := hexists (by decide)
  exact ⟨hweight, hresult, a', b', pieces, ha, hb, hpieces,
    hagree a' b' whole pieces ha hb hresult hpieces⟩

end Stream

end TapeCompiler
