/-
TapeCompiler.Proofs.LlvmDivision — where LLVM code divides as the machine does.

A constant is written as a number of the width of a cell, so a divisor is
reduced modulo the number of cell values. The machine divides by the whole
number. The two agree on all cells exactly if the divisor is smaller than
that number (`Width.divides_iff`): beyond it the quotient of every cell is
zero, and no divisor of the width of a cell gives that.

`Source.llvm_division_iff` says so of optimized texts, whose divisors have
no bound but the length of the text. `Source.llvm_division_by_zero` is a
text for which the code divides by zero.
-/
import TapeCompiler.Proofs.Divisors
import TapeCompiler.Proofs.LlvmLayout

namespace TapeCompiler

/-! ## 1. Divisors of the width of a cell -/

namespace Width

/-- Cells divided by a number reduced to the width are as if divided by the
number itself exactly if nothing was reduced. -/
theorem divides_iff (w : Width) {n : Int} (hn : 0 < n) :
    (w.truncate n ≠ 0 ∧ ∀ value < w.modulus, value / w.truncate n = value / n.toNat) ↔
      n < w.modulus := by
  have hpos := w.modulus_pos
  constructor
  · rintro ⟨hne, hquotient⟩
    by_contra hlarge
    have hlt := w.truncate_lt n
    -- the greatest cell tells the two divisors apart
    have hmask := hquotient (w.modulus - 1) (by omega)
    have hzero : (w.modulus - 1) / n.toNat = 0 := Nat.div_eq_of_lt (by omega)
    have hone : 0 < (w.modulus - 1) / w.truncate n := Nat.div_pos (by omega) (by omega)
    omega
  · intro hsmall
    have hsame : w.truncate n = n.toNat := by
      rw [truncate, Int.emod_eq_of_lt (by omega) hsmall]
    rw [hsame]
    exact ⟨by omega, fun _ _ => rfl⟩

end Width

namespace Llvm

/-- A constant stands for the cell that the number stands for. -/
theorem truncate_constant (w : Width) (n : Int) : w.truncate (constant w n) = w.truncate n := by
  rw [Width.truncate, Width.truncate, constant, Int.bmod_emod]

/-! ## 2. Lines that divide -/

/-- The operation divides. -/
def Op.divides : Op → Bool
  | .binary .udiv _ _ _ => true
  | _ => false

/-- The line divides. -/
def Line.divides : Line → Bool
  | .op code _ => code.divides
  | _ => false

theorem any_divides_straight (s : State) (i : Instruction) (code : Temp → List Op × Temp) :
    (straight s i code).pieces.any Line.divides = (code s.temps).1.any Op.divides :=
  List.any_map

theorem any_divides_address (t : Temp) (offset : Int) :
    (addressOps t offset).1.any Op.divides = false := by
  unfold addressOps
  split <;> rfl

theorem any_divides_repeat {once : Temp → List Op} (h : ∀ t, (once t).any Op.divides = false)
    (count used : Nat) (t : Temp) : (repeatOps count used once t).1.any Op.divides = false := by
  simp [repeatOps, List.any_flatMap, h]

theorem any_divides_write (w : Width) (t : Temp) : (writeOps w t).any Op.divides = false := by
  cases w <;> rfl

theorem any_divides_read (w : Width) (t : Temp) : (readOps w t).any Op.divides = false := by
  cases w <;> rfl

theorem any_divides_closeLoop (s : State) (position : Option Position) :
    (closeLoop s position).1.any Line.divides = false := by
  unfold closeLoop
  split <;> rfl

/-- Only a division is written with lines that divide. -/
theorem any_divides_step {i : Instruction} (h : i.opcode ≠ .div) (w : Width) (s : State) :
    (step w s i).pieces.any Line.divides = false := by
  unfold step
  cases hop : i.opcode <;> simp only
  case add | sub => rfl
  case right | left =>
    split
    · rfl
    · rw [any_divides_straight]
      simp [moveOps, any_divides_address, Op.divides]
  case write => rw [any_divides_straight, any_divides_repeat (any_divides_write w)]
  case read => rw [any_divides_straight, any_divides_repeat (any_divides_read w)]
  case loopStart => rfl
  case loopEnd => exact any_divides_closeLoop s i.position
  case mul =>
    rw [any_divides_straight]
    unfold mulOps
    split <;> rfl
  case div => exact absurd hop h
  case guard | label => rfl
  case store =>
    rw [any_divides_straight]
    simp [storeOps, any_divides_address, Op.divides]
  case scanRight | scanLeft | printRun => rfl

/-- The one line of a division that divides. -/
theorem filter_divides_step {i : Instruction} (hop : i.opcode = .div) (hoffset : i.offset = 0)
    (w : Width) (s : State) :
    (step w s i).pieces.filter Line.divides =
      [.op (.binary .udiv (s.temps + 3) (s.temps + 2) (.const (constant w i.value)))
        s.nextNode] := by
  simp only [step, hop, hoffset, if_true]
  rfl

theorem any_divides_closeAll (s : State) : (closeAll s).1.any Line.divides = false := by
  generalize hloops : s.loops = loops
  induction loops generalizing s with
  | nil => simp [closeAll_nil hloops]
  | cons loop outer ih =>
    rw [closeAll_cons hloops, List.any_append, any_divides_closeLoop,
      ih _ (loops_closeLoop hloops none), Bool.or_false]

theorem any_divides_finish (options : EmitOptions) (s : State) :
    (finish options s).pieces.any Line.divides = false := by
  have hnodes (nodes : List Node) : (nodeLines nodes).any Line.divides = false := by
    rw [List.any_eq_false]
    intro line hline
    obtain ⟨id, hid, rfl⟩ := List.mem_mapIdx.1 hline
    exact Bool.false_ne_true
  have hfooter (s : State) : (footer s).any Line.divides = false := rfl
  unfold finish
  cases Size.mul options.memorySize options.width.bits with
  | error cause => simp [Written.fail, List.any_append, any_divides_closeAll, hfooter]
  | ok tapeBits => simp [Written.ok, List.any_append, any_divides_closeAll, hfooter, hnodes]

/-- The lines that divide are those of the divisions of the stream. -/
theorem exists_of_divides {options : EmitOptions} {code : List Instruction}
    (hpasses : (emitter options).Passes first code) {line : Line}
    (hline : line ∈ (emission options code).pieces.toList) (hdivides : line.divides = true) :
    ∃ k i, code[k]? = some i ∧ i.opcode = .div ∧ line ∈ linesOf options code k := by
  have hnone {lines : List Line} (hlines : lines.any Line.divides = false) : line ∉ lines :=
    fun hmem => List.any_eq_false.1 hlines line hmem hdivides
  rw [(emission_of_passes hpasses).1, List.mem_append, List.mem_append] at hline
  rcases hline with (hline | hline) | hline
  · exact absurd hline (hnone rfl)
  · obtain ⟨k, hk⟩ := mem_piecesOf_iff.1 hline
    cases hi : code[k]? with
    | none => simp [linesOf, hi] at hk
    | some i =>
      refine ⟨k, i, hi, ?_, hk⟩
      by_contra hop
      rw [linesOf_eq hi, List.mem_append] at hk
      rcases hk with hk | hk
      · refine hnone ?_ hk
        unfold comment
        split <;> rfl
      · exact hnone (any_divides_step hop ..) hk
  · exact absurd hline (hnone (any_divides_finish ..))

end Llvm

/-! ## 3. Optimized texts -/

/-- What the machine does at a division by a positive number. -/
theorem Instruction.effect_div {i : Instruction} (hop : i.opcode = .div) (hvalue : 0 < i.value)
    (hoffset : i.offset = 0) (w : Width) {s : Store} {value : Nat}
    (hcell : s.cell 0 i.position = .ok value) :
    i.effect w s = s.setCell 0 (value / i.value.toNat) i.position := by
  have hpos : ¬ i.value ≤ 0 := by omega
  simp [effect, hop, hpos, hoffset, Store.update, hcell, bind, Except.bind]

/-- **Divisions in LLVM code.** The lines that divide, in the code of an
optimized text, are those of its divisions, one for each. The machine stores
the quotient of the cell by the value of the division; the constant in the
line gives the same quotient of every cell exactly if the value is smaller
than the number of cell values. -/
theorem Source.llvm_division_iff {text : String} {code : List Instruction}
    (hparse : Source.parse text = .ok code) {optimized : Optimized}
    (hoptimize : Stream.optimize .llvm code = .ok optimized) (options : EmitOptions) :
    (∀ line ∈ (Llvm.emission options optimized.code).pieces.toList, line.divides = true →
      ∃ k i, optimized.code[k]? = some i ∧ i.opcode = .div ∧
        line ∈ Llvm.linesOf options optimized.code k) ∧
    ∀ (k : Nat) (i : Instruction), optimized.code[k]? = some i → i.opcode = .div →
      ∃ dst lhs constant location,
        (Llvm.linesOf options optimized.code k).filter Llvm.Line.divides =
          [.op (.binary .udiv dst lhs (.const constant)) location] ∧
        (∀ s value, s.cell 0 i.position = .ok value →
          i.effect options.width s = s.setCell 0 (value / i.value.toNat) i.position) ∧
        ((options.width.truncate constant ≠ 0 ∧ ∀ value < options.width.modulus,
            value / options.width.truncate constant = value / i.value.toNat) ↔
          i.value < options.width.modulus) := by
  have haccepts := Source.llvm_accepts_of_optimize hparse hoptimize
  have hpasses := Llvm.passes_of_accepts options haccepts
  refine ⟨fun line hline hdivides => Llvm.exists_of_divides hpasses hline hdivides, ?_⟩
  intro k i hi hop
  have hmem := List.mem_of_getElem? hi
  have hoffset := (haccepts i hmem).division hop
  have hpos : 0 < i.value := by
    obtain ⟨t, rfl⟩ := (Source.wellFormed_of_parse hparse).1.exists_tree
    exact (Stream.dividesWithin_merged (Source.basic_of_parse hparse).1 hoptimize i hmem hop).1
  let s := Llvm.stateAt options optimized.code k
  have hlines : (Llvm.linesOf options optimized.code k).filter Llvm.Line.divides =
      [.op (.binary .udiv (s.temps + 3) (s.temps + 2)
        (.const (Llvm.constant options.width i.value))) s.nextNode] := by
    have hcomment : (Llvm.comment options i).filter Llvm.Line.divides = [] := by
      unfold Llvm.comment
      split <;> rfl
    rw [Llvm.linesOf_eq hi, List.filter_append, hcomment, List.nil_append]
    exact Llvm.filter_divides_step hop hoffset options.width s
  refine ⟨_, _, _, _, hlines,
    fun s value hcell => Instruction.effect_div hop hpos hoffset options.width hcell, ?_⟩
  rw [Llvm.truncate_constant]
  exact options.width.divides_iff hpos

/-- A loop that halves a cell. -/
theorem Source.llvm_division_iff_halving :
    ∃ (code : List Instruction) (optimized : Optimized),
      Source.parse "[-->+<]" = .ok code ∧ Stream.optimize .llvm code = .ok optimized ∧
      optimized.code[1]? = some ⟨.div, 2, 0, some ⟨1, 1⟩⟩ ∧
      ∃ dst lhs constant location,
        (Llvm.linesOf {} optimized.code 1).filter Llvm.Line.divides =
          [.op (.binary .udiv dst lhs (.const constant)) location] ∧
        Width.bits8.truncate constant ≠ 0 ∧
        ∀ value < 256, value / Width.bits8.truncate constant = value / 2 := by
  have hparse : Source.parse "[-->+<]" = .ok [⟨.loopStart, 1, 0, some ⟨1, 1⟩⟩,
      ⟨.sub, 1, 0, some ⟨1, 2⟩⟩, ⟨.sub, 1, 0, some ⟨1, 3⟩⟩, ⟨.right, 1, 0, some ⟨1, 4⟩⟩,
      ⟨.add, 1, 0, some ⟨1, 5⟩⟩, ⟨.left, 1, 0, some ⟨1, 6⟩⟩, ⟨.loopEnd, 1, 0, some ⟨1, 7⟩⟩] := by
    cbv
  have hcode : (Stream.optimize .llvm [⟨.loopStart, 1, 0, some ⟨1, 1⟩⟩,
        ⟨.sub, 1, 0, some ⟨1, 2⟩⟩, ⟨.sub, 1, 0, some ⟨1, 3⟩⟩, ⟨.right, 1, 0, some ⟨1, 4⟩⟩,
        ⟨.add, 1, 0, some ⟨1, 5⟩⟩, ⟨.left, 1, 0, some ⟨1, 6⟩⟩,
        ⟨.loopEnd, 1, 0, some ⟨1, 7⟩⟩]).map Optimized.code =
      .ok [⟨.guard, 1, 0, some ⟨1, 1⟩⟩, ⟨.div, 2, 0, some ⟨1, 1⟩⟩, ⟨.mul, 1, 1, some ⟨1, 5⟩⟩,
        ⟨.label, 1, 0, some ⟨1, 7⟩⟩, ⟨.mul, -1, 0, some ⟨1, 1⟩⟩] := by
    cbv
  cases hoptimize : Stream.optimize .llvm _ with
  | error fault =>
    rw [hoptimize] at hcode
    cases hcode
  | ok optimized =>
    rw [hoptimize] at hcode
    have hdiv : optimized.code[1]? = some ⟨.div, 2, 0, some ⟨1, 1⟩⟩ := by
      rw [Except.ok.inj hcode]
      rfl
    obtain ⟨dst, lhs, constant, location, hlines, -, hiff⟩ :=
      (Source.llvm_division_iff hparse hoptimize {}).2 1 _ hdiv rfl
    exact ⟨_, optimized, hparse, hoptimize, hdiv, dst, lhs, constant, location, hlines,
      hiff.2 (by decide)⟩

/-! ## 4. A divisor that is too large -/

namespace Source

/-- A text whose loop takes 256 off its counter in every round. -/
def longCountdown : List Char := '[' :: List.replicate 256 '-' ++ ['>', '+', '<', ']']

/-- The stream of the text. -/
def countdownSteps : List Instruction :=
  ⟨.loopStart, 1, 0, some ⟨1, 1⟩⟩ ::
    (List.range 256).map (fun k => ⟨.sub, 1, 0, some ⟨1, k + 2⟩⟩) ++
    [⟨.right, 1, 0, some ⟨1, 258⟩⟩, ⟨.add, 1, 0, some ⟨1, 259⟩⟩, ⟨.left, 1, 0, some ⟨1, 260⟩⟩,
      ⟨.loopEnd, 1, 0, some ⟨1, 261⟩⟩]

/-- The stream with its steps merged. -/
def countdownMerged : List Instruction :=
  [⟨.loopStart, 1, 0, some ⟨1, 1⟩⟩, ⟨.sub, 256, 0, some ⟨1, 2⟩⟩, ⟨.right, 1, 0, some ⟨1, 258⟩⟩,
    ⟨.add, 1, 0, some ⟨1, 259⟩⟩, ⟨.left, 1, 0, some ⟨1, 260⟩⟩, ⟨.loopEnd, 1, 0, some ⟨1, 261⟩⟩]

/-- The stream with its loop flattened. -/
def countdownFlat : List Instruction :=
  [⟨.guard, 1, 0, some ⟨1, 1⟩⟩, ⟨.div, 256, 0, some ⟨1, 1⟩⟩, ⟨.mul, 1, 1, some ⟨1, 259⟩⟩,
    ⟨.label, 1, 0, some ⟨1, 261⟩⟩, ⟨.mul, -1, 0, some ⟨1, 1⟩⟩]

theorem eq_ok_of_toOption {ε α : Type} {x : Except ε α} {a : α} (h : x.toOption = some a) :
    x = .ok a := by
  cases x with
  | error => cases h
  | ok => exact congrArg Except.ok (Option.some.inj h)

theorem parse_longCountdown : parse (String.ofList longCountdown) = .ok countdownSteps := by
  rw [parse, String.toList_ofList]
  exact eq_ok_of_toOption (by decide +kernel)

theorem optimize_longCountdown :
    (Stream.optimize .llvm countdownSteps).map Optimized.code = .ok countdownFlat := by
  have hmerge : Stream.merge countdownSteps = .ok countdownMerged :=
    eq_ok_of_toOption (by decide +kernel)
  have hstays : Stream.mergeOn 1 countdownMerged = .ok countdownMerged := by
    cbv
  have hflatten : Stream.flattenWithStats .llvm countdownMerged =
      .ok (countdownFlat, { multiplyLoops := 1, divisions := 1 }) := by
    cbv
  have hall : Stream.mergeAll countdownSteps = .ok countdownMerged :=
    bind_eq_ok_iff.2 ⟨_, hmerge, hstays⟩
  have hoptimize : Stream.optimize .llvm countdownSteps = .ok ⟨countdownMerged,
      some (countdownFlat, { multiplyLoops := 1, divisions := 1 })⟩ :=
    bind_eq_ok_iff.2 ⟨_, FlattenError.ofOverflow_eq_ok_iff.2 hall,
      bind_eq_ok_iff.2 ⟨_, hflatten, rfl⟩⟩
  rw [hoptimize]
  rfl

/-- **Division by zero.** With cells of eight bits, 256 is written as zero. -/
theorem llvm_division_by_zero :
    ∃ (code : List Instruction) (optimized : Optimized),
      parse (String.ofList longCountdown) = .ok code ∧
      Stream.optimize .llvm code = .ok optimized ∧
      optimized.code[1]? = some ⟨.div, 256, 0, some ⟨1, 1⟩⟩ ∧
      "  %t6 = udiv i8 %t5, 0, !dbg !22\n" ∈
        (Stream.emission .llvm {} optimized.code).pieces.toList := by
  cases hoptimize : Stream.optimize .llvm countdownSteps with
  | error fault =>
    have hcode := optimize_longCountdown
    rw [hoptimize] at hcode
    cases hcode
  | ok optimized =>
    have hcode := optimize_longCountdown
    rw [hoptimize] at hcode
    have hflat : optimized.code = countdownFlat := Except.ok.inj hcode
    refine ⟨_, optimized, parse_longCountdown, hoptimize, ?_, ?_⟩
    · rw [hflat]
      rfl
    · rw [hflat]
      decide +kernel

end Source

end TapeCompiler
