/-
TapeCompiler.Proofs.QbeSound — generated QBE code does what the machine does.

`Source.qbe_simulates`: of a text that parses, the QBE code, with and
without optimization, follows the run of the machine from `@start` to the
end of the function, if that run completes and keeps its pointer on the
tape. The steps of the two runs are matched one by one in
`Proofs.QbeControl`; here they are put together, with what comes before the
first step and behind the last one.

* That the pointer stays on the tape is a condition on the machine's runs
  with all step limits, as these stop it after any number of instructions
  (`Machine.KeepsTo`).
* The text being shorter than `2 ^ 32` characters, its divisors are words.
* Its reads may still be more than can be tallied, and then there is no
  function to run (`Source.qbe_reads_overflow`).
-/
import TapeCompiler.Proofs.Divisors
import TapeCompiler.Proofs.QbeControl

namespace TapeCompiler

/-! ## 1. Pointers on the tape -/

/-- Whatever the step limit, the run of a stream stops with the pointer on the
first `cells` cells. So the pointer is there after every instruction. -/
def Machine.KeepsTo (m : Machine) (code : List Instruction) (w : Width) (cells : Nat) : Prop :=
  ∀ limit outcome m', m.execute code w limit = .ok (outcome, m') →
    0 ≤ m'.pointer ∧ m'.pointer < cells

/-- The pointer is on the first `cells` cells, as its sign and size tell. -/
def Machine.isOn (m : Machine) (cells : Nat) : Bool :=
  match m.pointer with
  | .ofNat index => index.blt cells
  | .negSucc _ => false

theorem Machine.isOn_iff {m : Machine} {cells : Nat} :
    m.isOn cells = true ↔ 0 ≤ m.pointer ∧ m.pointer < cells := by
  unfold isOn
  cases m.pointer <;> simp [Nat.blt_eq]

namespace Program

variable {p : Program} {cells headroom : Nat} {m m' : Machine} {i : Instruction}

/-- Whatever the step limit, a run from here stops with the pointer on the
first `cells` cells. -/
def Confines (p : Program) (cells headroom : Nat) (m : Machine) : Prop :=
  ∀ limit outcome m', resume { p with limit } headroom m = .ok (outcome, m') →
    0 ≤ m'.pointer ∧ m'.pointer < cells

namespace Confines

theorem here (h : p.Confines cells headroom m) : 0 ≤ m.pointer ∧ m.pointer < cells := by
  have hlimit : exhausted { p with limit := some 0 } m = true := by simp [exhausted]
  obtain ⟨outcome, hrun⟩ := resume_of_exhausted hlimit headroom
  exact h _ _ _ hrun

/-- A step leads to where the rest of the run is confined as well. -/
theorem step (h : p.Confines cells (headroom + 1) m) (hi : p.code[m.counter]? = some i)
    (hperform : p.perform i { m with steps := m.steps + 1 } = .ok m') :
    p.Confines cells headroom m' := by
  have hsteps : m'.steps = m.steps + 1 := steps_of_perform hperform
  -- where the limit is not reached yet, the run goes through this step
  have hfirst (limit : Option Nat) (hlimit : exhausted { p with limit } m = false) :
      resume { p with limit } (headroom + 1) m = resume { p with limit } headroom m' := by
    have hsame : perform { p with limit } i { m with steps := m.steps + 1 } = .ok m' := hperform
    rw [resume_succ (p := { p with limit }) hi hlimit, hsame]
  intro limit outcome final hrun
  cases hlimit : exhausted { p with limit } m with
  | false => exact h limit outcome final (by rw [hfirst limit hlimit, hrun])
  | true =>
    -- with a smaller limit the run stops at once, as it does with the limit `m.steps + 1`
    have hstop : exhausted { p with limit } m' = true := by
      cases limit with
      | none => cases hlimit
      | some n =>
        simp only [exhausted, decide_eq_true_eq] at hlimit ⊢
        omega
    obtain ⟨_, hhere⟩ := resume_of_exhausted hstop headroom
    obtain rfl : final = m' := congrArg Prod.snd (Except.ok.inj (hrun.symm.trans hhere))
    have hnext : exhausted { p with limit := some (m.steps + 1) } final = true := by
      simp [exhausted, hsteps]
    obtain ⟨outcome', hrun'⟩ := resume_of_exhausted hnext headroom
    refine h (some (m.steps + 1)) outcome' final ?_
    rw [hfirst _ (by simp [exhausted]), hrun']

end Confines

/-- Runs on from here for at most so many steps, and tells whether the run is
over then, with its pointer on the first `cells` cells all the way. -/
def staysOn (p : Program) (cells : Nat) : Nat → Machine → Bool
  | 0, m => m.isOn cells && p.code[m.counter]?.isNone
  | fuel + 1, m =>
    m.isOn cells &&
      match p.code[m.counter]? with
      | none => true
      | some i =>
        match p.perform i { m with steps := m.steps + 1 } with
        | .error _ => true
        | .ok m' => p.staysOn cells fuel m'

theorem here_of_staysOn {fuel : Nat} (h : p.staysOn cells fuel m = true) :
    0 ≤ m.pointer ∧ m.pointer < cells := by
  rw [← Machine.isOn_iff]
  cases fuel <;> simp only [staysOn, Bool.and_eq_true] at h <;> exact h.1

theorem step_of_staysOn {fuel : Nat} (h : p.staysOn cells fuel m = true)
    (hi : p.code[m.counter]? = some i)
    (hperform : p.perform i { m with steps := m.steps + 1 } = .ok m') :
    ∃ fuel', p.staysOn cells fuel' m' = true := by
  cases fuel with
  | zero => simp [staysOn, hi] at h
  | succ fuel =>
    simp only [staysOn, hi, hperform, Bool.and_eq_true] at h
    exact ⟨fuel, h.2⟩

/-- What was found out for so many steps holds with any limit. -/
theorem confines_of_staysOn (fuel : Nat) (h : p.staysOn cells fuel m = true) (headroom : Nat) :
    p.Confines cells headroom m := by
  intro limit outcome final hrun
  fun_induction resume { p with limit } headroom m generalizing fuel with
  | case1 =>
    cases hrun
    exact here_of_staysOn h
  | case2 =>
    cases hrun
    exact here_of_staysOn h
  | case3 => cases hrun
  | case4 => cases hrun
  | case5 m i hi _ headroom m₁ hperform ih =>
    obtain ⟨fuel', h'⟩ := step_of_staysOn h hi hperform
    exact ih fuel' h' hrun

end Program

theorem Machine.keepsTo_iff_confines {m : Machine} {code : List Instruction} {w : Width}
    {cells : Nat} :
    m.KeepsTo code w cells ↔
      (Stream.program code w).Confines cells (Size.greatest - m.steps) (m.entering code) :=
  Iff.rfl

/-- The same check for a machine that starts a stream. -/
def Machine.staysOn (m : Machine) (code : List Instruction) (w : Width) (cells fuel : Nat) : Bool :=
  let (jumps, warnings) := JumpTable.ofStream code
  Program.staysOn { code := code.toArray, jumps, width := w } cells fuel
    { m with counter := 0, warnings := m.warnings ++ warnings }

/-- Where a machine keeps its pointer can be found out by running it. -/
theorem Machine.keepsTo_of_staysOn {m : Machine} {code : List Instruction} {w : Width}
    {cells : Nat} (fuel : Nat) (h : m.staysOn code w cells fuel = true) :
    m.KeepsTo code w cells :=
  keepsTo_iff_confines.2 (Program.confines_of_staysOn fuel h _)

namespace Qbe

variable {options : EmitOptions} {code : List Instruction} {base : Nat}

/-! ## 2. From the start to the end -/

namespace Runnable

variable (hrun : Runnable options code base)

include hrun

/-- The code before the first instruction makes the frame that represents a
fresh store. -/
theorem reaches_first {s : Store} {input : List UInt8} {q : Process}
    (hcells : 0 < options.memorySize)
    (htape : s.tape = Array.replicate options.memorySize 0) (hpointer : s.pointer = 0)
    (hinput : s.input = input.map .byte) (houtput : s.sink.written = #[])
    (h : (image options code base).Starts input q) :
    ∃ f, (image options code base).Reaches q ⟨f, lineOf options code 0⟩ ∧
      Represents (image options code base) options.memorySize s f := by
  have hheader := pieces_header hrun.written
  have hat : (image options code base).At 3
      [.label .start, .instr .tapeStart, .instr (.copy .v (.const 0))] := by
    refine ⟨(emitter options).piecesOf (stateAt options code 0) (code.drop 0) ++ footer, ?_⟩
    rw [lines_image hrun.written base 0, linesBefore, hheader]
    rfl
  have hfirst : lineOf options code 0 = 3 + 1 + 1 + 1 := by
    rw [lineOf, linesBefore, hheader]
    rfl
  obtain ⟨f, line⟩ := q
  obtain rfl : 3 = line := by
    have hline := h.line
    rw [target?_start hrun.written base] at hline
    exact Option.some.inj hline
  refine ⟨(f.setAddress .p (BitVec.ofNat 64 base)).setWord .v 0, ?_, ?_⟩
  · rw [hfirst]
    exact (Image.reaches_pass hat.head (.inl ⟨_, rfl⟩)).trans
      (.head (Image.step_of_exec hat.tail.head rfl)
        (.single (Image.step_of_exec hat.tail.tail.head rfl)))
  · refine .of_blank hrun.fits hcells htape hpointer h.tape ?_ ?_ rfl rfl
    · rw [hinput, ← h.input]
      rfl
    · rw [houtput]
      exact h.output.symm

/-- **A whole run**, from a place that the process has come to. -/
theorem simulates_resume {p : Program} (hcode : p.code = code.toArray)
    (hjumps : p.jumps = (JumpTable.ofStream code).1) (hwidth : p.width = options.width)
    {headroom : Nat} {m final : Machine} {q : Process}
    (hconfines : p.Confines options.memorySize headroom m)
    (hresume : p.resume headroom m = .ok (.completed, final))
    (h : Stands options code base m q) :
    ∃ q', (image options code base).Reaches q q' ∧ Stands options code base final q' ∧
      code[final.counter]? = none := by
  fun_induction Program.resume p headroom m generalizing q with
  | case1 headroom m hi =>
    cases hresume
    exact ⟨q, .refl, h, by simpa [hcode] using hi⟩
  | case2 => cases hresume
  | case3 => cases hresume
  | case4 => cases hresume
  | case5 m i hi _ headroom m₁ hperform ih =>
    have hconfines₁ := hconfines.step hi hperform
    obtain ⟨hlow, hhigh⟩ := hconfines₁.here
    have hcounted : Stands options code base { m with steps := m.steps + 1 } q :=
      ⟨h.represents, h.awaits⟩
    obtain ⟨q₁, hreach₁, hq₁⟩ := hrun.simulates_perform hjumps hwidth
      (by simpa [hcode] using hi) hperform hlow hhigh hcounted
    obtain ⟨q', hreach, hq'⟩ := ih hconfines₁ hresume hq₁
    exact ⟨q', hreach₁.trans hreach, hq'⟩

/-- Where nothing comes next, the process is at the end of the function. -/
theorem returns_of_stands {m : Machine} {q : Process} (h : Stands options code base m q)
    (hend : code[m.counter]? = none) : (image options code base).Returns q := by
  obtain ⟨f, line⟩ := q
  have hlength := List.getElem?_eq_none_iff.1 hend
  have hline : lineOf options code m.counter = lineOf options code code.length := by
    rw [lineOf, lineOf, linesBefore, linesBefore, List.take_of_length_le hlength, List.take_length]
  cases h.awaits with
  | first =>
    show (image options code base).Returns ⟨f, lineOf options code m.counter⟩
    rw [hline]
    exact returns_at_end hrun.written base f
  | label hi =>
    rw [hend] at hi
    cases hi
  | exit hi =>
    rw [hend] at hi
    cases hi

/-- **A run from the start**, of a machine that keeps to its tape. -/
theorem simulates_execute {m final : Machine} {input : List UInt8}
    (htape : m.tape = Array.replicate options.memorySize 0) (hpointer : m.pointer = 0)
    (hinput : m.input = input.map .byte) (houtput : m.sink.written = #[])
    (hkeeps : m.KeepsTo code options.width options.memorySize)
    (hexecute : m.execute code options.width none = .ok (.completed, final)) {q : Process}
    (h : (image options code base).Starts input q) :
    ∃ q', (image options code base).Reaches q q' ∧ (image options code base).Returns q' ∧
      Represents (image options code base) options.memorySize final.toStore q'.toFrame := by
  have hconfines := Machine.keepsTo_iff_confines.1 hkeeps
  have hcells : 0 < options.memorySize := by
    have hlast : (0 : Int) < options.memorySize := hpointer ▸ hconfines.here.2
    omega
  obtain ⟨f, hfirst, hf⟩ :=
    hrun.reaches_first (s := (m.entering code).toStore) hcells htape hpointer hinput houtput h
  have hstands : Stands options code base (m.entering code) ⟨f, lineOf options code 0⟩ :=
    ⟨hf, .first⟩
  obtain ⟨q', hreach, hq', hend⟩ :=
    hrun.simulates_resume rfl rfl rfl hconfines hexecute hstands
  exact ⟨q', hfirst.trans hreach, hrun.returns_of_stands hq' hend, hq'.represents⟩

end Runnable

/-! ## 3. Streams of a text -/

/-- A tape that can be addressed can be declared, so only the reads decide
whether the code is written in full. -/
theorem outcome_emission_of_size (options : EmitOptions) (hsize : options.memorySize < 2 ^ 60)
    (hwf : Stream.WellFormed code) (hexpressed : ∀ i ∈ code, Target.Expresses .qbe i) :
    (emission options code).outcome = Stream.fullOutcome .qbe code := by
  obtain ⟨t, rfl⟩ := hwf.exists_tree
  have hbytes : options.width.bytes ≤ 4 := by cases options.width <;> decide
  have hle := Nat.mul_le_mul_left options.memorySize hbytes
  rw [outcome_emit_of_bytes options (by omega) hexpressed]
  simp [Stream.fullOutcome]

/-- The code of a well-formed stream runs, on a tape that can be addressed. -/
theorem Runnable.of_wellFormed {bound : Nat} (hwf : Stream.WellFormed code)
    (hexpressed : ∀ i ∈ code, Target.Expresses .qbe i)
    (hdivisors : ∀ i ∈ code, i.DividesWithin bound) (hbound : bound < 2 ^ 32)
    (hreads : Stream.reads code ≤ Tally.greatest) (hsize : options.memorySize < 2 ^ 60)
    (hplaced : base + options.memorySize * options.width.bytes ≤ 2 ^ 64) :
    Runnable options code base := by
  have hwritten : (emission options code).outcome = .ok [] := by
    rw [outcome_emission_of_size options hsize hwf hexpressed,
      Stream.fullOutcome_of_reads_le .qbe hreads]
  refine ⟨hwf, hwritten, hexpressed, fun i hi hop => ?_, size_image hwritten base, hplaced, hsize⟩
  obtain ⟨hpos, hle⟩ := hdivisors i hi hop
  exact ⟨hpos, by omega⟩

end Qbe

/-- A machine with a tape of zeros, and with these bytes to read. -/
def Machine.reading (size : Nat) (bytes : ByteArray) : Machine :=
  { Machine.blank size with input := Input.ofBytes bytes }

/-- **Generated QBE code preserves the meaning of a text that parses**, with
and without optimization, for every cell width, tape and input. Of a stream
whose reads can be tallied the code is written in full. If the machine's run
completes, with the pointer on the tape after every instruction, then the
function runs from `@start` to its end. It has written the same bytes by
then, its memory holds the machine's tape, `%p` and `%v` are the address and
the value of the current cell, and the same input is left. -/
theorem Source.qbe_simulates {text : String} {code : List Instruction}
    (hparse : Source.parse text = .ok code) (hlength : text.length < 2 ^ 32)
    (options : EmitOptions) (hsize : options.memorySize < 2 ^ 60) (base : Nat)
    (hplaced : base + options.memorySize * options.width.bytes ≤ 2 ^ 64) :
    ∃ optimized, Stream.optimize .qbe code = .ok optimized ∧
      ∀ stream, stream = code ∨ stream = optimized.code →
        Stream.reads stream ≤ text.length ∧
        (Stream.emission .qbe options stream).outcome = Stream.fullOutcome .qbe stream ∧
        (Stream.reads stream ≤ Tally.greatest →
          (Stream.emission .qbe options stream).outcome = .ok [] ∧
          (Stream.emission .qbe options stream).pieces.toList =
            (Qbe.image options stream base).lines.map (Qbe.Line.render options.width) ∧
          ∀ (bytes : ByteArray) (final : Machine),
            (Machine.reading options.memorySize bytes).execute stream options.width none =
              .ok (.completed, final) →
            (Machine.reading options.memorySize bytes).KeepsTo stream options.width
              options.memorySize →
            ∀ q, (Qbe.image options stream base).Starts bytes.data.toList q →
              ∃ q', (Qbe.image options stream base).Reaches q q' ∧
                (Qbe.image options stream base).Returns q' ∧
                q'.output = final.sink.written ∧
                Qbe.Represents (Qbe.image options stream base) options.memorySize final.toStore
                  q'.toFrame) := by
  obtain ⟨hbasic, hcounts⟩ := Source.basic_of_parse hparse
  obtain ⟨hwf, -⟩ := Source.wellFormed_of_parse hparse
  obtain ⟨optimized, t, hoptimize, hcode, hexpressed, hreads⟩ :=
    (Source.optimize_cases hparse (by omega) .qbe).resolve_right fun hfails => by omega
  refine ⟨optimized, hoptimize, fun stream hstream => ?_⟩
  -- what the passes keep of the text
  obtain ⟨hwf', hexpressed, hdivisors, hreads⟩ : Stream.WellFormed stream ∧
      (∀ i ∈ stream, Target.Expresses .qbe i) ∧
      (∀ i ∈ stream, i.DividesWithin (Stream.counts code)) ∧
      Stream.reads stream ≤ text.length := by
    rcases hstream with rfl | rfl
    · refine ⟨hwf, fun i hi => ?_, Stream.dividesWithin_of_basic hbasic,
        Nat.le_trans (Stream.reads_le_counts _) hcounts⟩
      exact Target.expresses_basic .qbe (hbasic i hi)
        (by have := Stream.tally_le_counts hi; omega)
    · obtain ⟨t', rfl⟩ := hwf.exists_tree
      exact ⟨Pass.wellFormed_of_optimize hwf hoptimize, hcode ▸ hexpressed,
        Stream.dividesWithin_of_optimize hbasic (by omega) hoptimize, hcode ▸ hreads⟩
  refine ⟨hreads, Qbe.outcome_emission_of_size options hsize hwf' hexpressed, fun hfew => ?_⟩
  have hrun : Qbe.Runnable options stream base :=
    .of_wellFormed hwf' hexpressed hdivisors (by omega) hfew hsize hplaced
  refine ⟨hrun.written, ?_, fun bytes final hexecute hkeeps q hstarts => ?_⟩
  · simp [Stream.emission, Emission.map, Qbe.image]
  · obtain ⟨q', hreach, hreturns, hq'⟩ :=
      hrun.simulates_execute rfl rfl rfl rfl hkeeps hexecute hstarts
    exact ⟨q', hreach, hreturns, hq'.output.symm, hq'⟩

/-- A loop that halves a byte: the machine goes around it twice, and the
optimized code divides. -/
theorem Source.qbe_simulates_halving :
    let options : EmitOptions := { memorySize := 2 }
    ∃ (code : List Instruction) (optimized : Optimized), Source.parse ",[-->+<]>." = .ok code ∧
      Stream.optimize .qbe code = .ok optimized ∧
      ∀ stream, stream = code ∨ stream = optimized.code →
        ∃ q q', (Qbe.image options stream 4096).Starts [4] q ∧
          (Qbe.image options stream 4096).Reaches q q' ∧
          (Qbe.image options stream 4096).Returns q' ∧ q'.output = #[2] := by
  intro options
  let plain : List Instruction := [⟨.read, 1, 0, some ⟨1, 1⟩⟩, ⟨.loopStart, 1, 0, some ⟨1, 2⟩⟩,
    ⟨.sub, 1, 0, some ⟨1, 3⟩⟩, ⟨.sub, 1, 0, some ⟨1, 4⟩⟩, ⟨.right, 1, 0, some ⟨1, 5⟩⟩,
    ⟨.add, 1, 0, some ⟨1, 6⟩⟩, ⟨.left, 1, 0, some ⟨1, 7⟩⟩, ⟨.loopEnd, 1, 0, some ⟨1, 8⟩⟩,
    ⟨.right, 1, 0, some ⟨1, 9⟩⟩, ⟨.write, 1, 0, some ⟨1, 10⟩⟩]
  let divided : List Instruction := [⟨.read, 1, 0, some ⟨1, 1⟩⟩, ⟨.guard, 1, 0, some ⟨1, 2⟩⟩,
    ⟨.div, 2, 0, some ⟨1, 2⟩⟩, ⟨.mul, 1, 1, some ⟨1, 6⟩⟩, ⟨.label, 1, 0, some ⟨1, 8⟩⟩,
    ⟨.mul, -1, 0, some ⟨1, 2⟩⟩, ⟨.right, 1, 0, some ⟨1, 9⟩⟩, ⟨.write, 1, 0, some ⟨1, 10⟩⟩]
  have hparse : Source.parse ",[-->+<]>." = .ok plain := by cbv
  have hdivided : (Stream.optimize .qbe plain).map Optimized.code = .ok divided := by cbv
  obtain ⟨optimized, hoptimize, hruns⟩ := Source.qbe_simulates hparse (by decide) options
    (by decide) 4096 (by decide)
  rw [hoptimize] at hdivided
  have hcode : optimized.code = divided := Except.ok.inj hdivided
  refine ⟨plain, optimized, hparse, hoptimize, fun stream hstream => ?_⟩
  have hstream' : stream = plain ∨ stream = divided := hcode ▸ hstream
  obtain ⟨-, -, hwritten⟩ := hruns stream hstream
  have hreads : Stream.reads stream ≤ Tally.greatest := by
    rcases hstream' with rfl | rfl <;> decide
  obtain ⟨houtcome, -, hrun⟩ := hwritten hreads
  -- the divided code passes its only label by and never looks at the table
  obtain ⟨jumps, htable⟩ : ∃ jumps, JumpTable.ofStream divided = (jumps, #[]) := ⟨_, rfl⟩
  have hmachine : ∃ steps counter, (Machine.reading 2 ⟨#[4]⟩).execute stream .bits8 none =
      .ok (.completed, ⟨{ tape := #[0, 2], pointer := 1, sink := { written := #[2] } }, steps,
        counter⟩) := by
    rcases hstream' with rfl | rfl
    · exact ⟨17, 10, by cbv⟩
    · refine ⟨8, 8, ?_⟩
      simp only [Machine.execute, Machine.executeWithin, htable]
      cbv
  have hkeeps : (Machine.reading 2 ⟨#[4]⟩).KeepsTo stream .bits8 2 := by
    refine Machine.keepsTo_of_staysOn 20 ?_
    rcases hstream' with rfl | rfl
    · cbv
    · simp only [Machine.staysOn, htable]
      cbv
  let q : Qbe.Process := ⟨⟨fun _ => 7, fun _ => 7, fun _ => 0, [4], #[]⟩, 3⟩
  have hstarts : (Qbe.image options stream 4096).Starts [4] q :=
    ⟨Qbe.target?_start houtcome 4096, fun _ _ _ => rfl, rfl, rfl⟩
  obtain ⟨steps, counter, hexecute⟩ := hmachine
  obtain ⟨q', hreach, hreturns, houtput, -⟩ := hrun ⟨#[4]⟩ _ hexecute hkeeps q hstarts
  exact ⟨q, q', hstarts, hreach, hreturns, houtput⟩

/-! ## 4. Reads that are too many -/

namespace Program

variable {p : Program} {s : Store}

/-- Instructions that leave the store as it is are passed over one by one. -/
theorem resume_idle (hidle : ∀ i ∈ p.code, i.Plain ∧ i.effect p.width s = .ok s)
    {headroom steps index : Nat} {outcome : Outcome} {final : Machine}
    (h : p.resume headroom ⟨s, steps, index⟩ = .ok (outcome, final)) : final.toStore = s := by
  generalize hm : (⟨s, steps, index⟩ : Machine) = m at h
  fun_induction resume p headroom m generalizing steps index with
  | case1 => cases h; rw [← hm]
  | case2 => cases h; rw [← hm]
  | case3 => cases h
  | case4 => cases h
  | case5 m i hi _ headroom m₁ hperform ih =>
    subst hm
    obtain ⟨plain, heffect⟩ := hidle i (Array.mem_of_getElem? hi)
    rw [perform_plain_ok plain heffect] at hperform
    exact ih (Except.ok.inj hperform) h

/-- With room for them all, they are passed over to the end. -/
theorem exists_resume_idle (hlimit : p.limit = none)
    (hidle : ∀ i ∈ p.code, i.Plain ∧ i.effect p.width s = .ok s) {headroom steps index : Nat}
    (hroom : p.code.size ≤ index + headroom) :
    ∃ final, p.resume headroom ⟨s, steps, index⟩ = .ok (.completed, final) := by
  induction headroom generalizing steps index with
  | zero => exact ⟨_, resume_end (by simpa using hroom) 0⟩
  | succ headroom ih =>
    cases hi : p.code[index]? with
    | none => exact ⟨_, resume_end hi _⟩
    | some i =>
      obtain ⟨plain, heffect⟩ := hidle i (Array.mem_of_getElem? hi)
      obtain ⟨final, hfinal⟩ := @ih (steps + 1) (index + 1) (by omega)
      refine ⟨final, ?_⟩
      rw [resume_succ hi (by simp [exhausted, hlimit]), perform_plain_ok plain heffect]
      exact hfinal

end Program

/-- At the end of the input reads leave the store as it is. -/
theorem Store.readTimes_of_no_input {s : Store} (h : s.input = [])
    (position : Option Position) (count : Nat) : s.readTimes position count = .ok s := by
  have honce : s.readOnce position = .ok s := by
    simp only [readOnce, h, Input.receive]
    rw [← h]
  induction count with
  | zero => rfl
  | succ count ih => rw [readTimes, honce]; exact ih

/-- **Reads can be too many.** There is a text whose run completes on a tape of
one cell, at the end of the input all along and with the pointer on the tape,
and whose QBE code cannot be written. -/
theorem Source.qbe_reads_overflow :
    ∃ (text : String) (code : List Instruction), text.length < 2 ^ 32 ∧
      Source.parse text = .ok code ∧
      (∃ final, (Machine.reading 1 ByteArray.empty).execute code .bits8 none =
        .ok (.completed, final)) ∧
      (Machine.reading 1 ByteArray.empty).KeepsTo code .bits8 1 ∧
      (Stream.emission .qbe { memorySize := 1 } code).outcome = .error (.overflow .add) := by
  obtain ⟨text, code, hlength, hparse, hreads, hread⟩ := Source.exists_reading_text 2147483648
  obtain ⟨hbasic, hcounts⟩ := Source.basic_of_parse hparse
  obtain ⟨hwf, -⟩ := Source.wellFormed_of_parse hparse
  have hshort : text.length < 2 ^ 32 := by
    rw [hlength]
    decide
  let m := (Machine.reading 1 ByteArray.empty).entering code
  have hidle : ∀ i ∈ code.toArray, i.Plain ∧ i.effect .bits8 m.toStore = .ok m.toStore := by
    intro i hi
    have hop := (hread i (List.mem_toArray.1 hi)).1
    refine ⟨by rw [Instruction.Plain, hop]; decide, ?_⟩
    rw [Instruction.effect, hop]
    exact Store.readTimes_of_no_input rfl _ _
  refine ⟨text, code, hshort, hparse, ?_, ?_, ?_⟩
  · have hroom : code.length ≤ Size.greatest :=
      Nat.le_trans (Source.length_le_of_parse hparse) (by rw [hlength]; decide)
    refine Program.exists_resume_idle (p := Stream.program code .bits8) rfl hidle ?_
    simpa [Stream.program, Machine.reading, Machine.blank] using hroom
  · refine Machine.keepsTo_iff_confines.2 fun limit outcome final hrun => ?_
    have hstore := Program.resume_idle (p := { Stream.program code .bits8 with limit }) hidle hrun
    have hpointer : final.pointer = 0 := congrArg Store.pointer hstore
    omega
  · have hexpressed : ∀ i ∈ code, Target.Expresses .qbe i := fun i hi =>
      Target.expresses_basic .qbe (hbasic i hi) (by have := Stream.tally_le_counts hi; omega)
    have hmany : Tally.greatest < Stream.reads code := by
      rw [hreads]
      decide
    show (Qbe.emission _ code).outcome = _
    rw [Qbe.outcome_emission_of_size _ (by decide) hwf hexpressed, Stream.fullOutcome,
      if_pos ⟨rfl, hmany⟩]

end TapeCompiler
