/-
TapeCompiler.Backend.Qbe — code in the intermediate language of QBE.

`%p` holds the address of the current cell and `%v` its value, which every
instruction keeps up to date, so that tests need not load it again.
Distances are scaled to bytes. The reads are tallied, and a read that the
tally cannot count ends the work. A loop left open is closed at the end, with
a warning. Scan, print and division at a distance have no counterpart.
-/
import TapeCompiler.Emission
import TapeCompiler.Code.Qbe

namespace TapeCompiler

namespace Qbe

/-- What is remembered between instructions. -/
structure State where
  /-- The labels of the open loops, innermost first. -/
  openLoops : List Int := []
  /-- The tally of the reads that were written. -/
  reads : Nat := 0
  deriving DecidableEq, Repr, Inhabited

/-- Stores `value` in the cell at `addr` and brings it into cell range, in
which a word already is. -/
def putCell (w : Width) (value addr : Temp) : List Line :=
  if w = .bits32 then [.instr (.store value addr)]
  else [.instr (.store value addr), .instr (.extend value)]

/-- One read, the `k`-th: at the end of the input the cell stays. -/
def readLines (w : Width) (k : Nat) : List Line :=
  [.instr (.getchar .c),
    .instr (.isNegative .eof .c),
    .instr (.branch .eof (.readDone k) (.readByte k)),
    .label (.readByte k),
    .instr (.copy .v (.temp .c))]
    ++ putCell w .v .p
    ++ [.label (.readDone k)]

/-- So many reads, each tallied before it is written. The one that the tally
cannot count is not written any more. -/
def putReads (w : Width) (s : State) (count : Nat) : Written Line State :=
  let room := Tally.greatest - s.reads
  let lines := (List.range (min count room)).flatMap (fun k => readLines w (s.reads + k + 1))
  if count ≤ room then .ok lines { s with reads := s.reads + count }
  else .fail lines (.overflow .add)

/-- The end of a loop. -/
def closeLoop (label : Int) : List Line :=
  [.instr (.jump (.loopHead label)), .label (.loopExit label)]

/-- A distance in cells as a distance in bytes. -/
def scaled (w : Width) (distance : Int) : Except EmitFault Int :=
  (Operand.mul distance w.bytes).mapError .overflow

/-- The code of an instruction. -/
def step (w : Width) (s : State) (i : Instruction) : Written Line State :=
  let n := i.value
  match i.opcode with
  | .add => .ok (.instr (.word .add .v .v (.const n)) :: putCell w .v .p) s
  | .sub => .ok (.instr (.word .sub .v .v (.const n)) :: putCell w .v .p) s
  | .right =>
    match scaled w n with
    | .error fault => .fail [] fault
    | .ok bytes => .ok [.instr (.offset .add .p .p bytes), .instr (.load .v .p)] s
  | .left =>
    match scaled w n with
    | .error fault => .fail [] fault
    | .ok bytes => .ok [.instr (.offset .sub .p .p bytes), .instr (.load .v .p)] s
  | .write => .ok (List.replicate n.toNat (.instr (.putchar .v))) s
  | .read => putReads w s n.toNat
  | .loopStart =>
    .ok [.label (.loopHead n), .instr (.branch .v (.loopBody n) (.loopExit n)),
        .label (.loopBody n)]
      { s with openLoops := n :: s.openLoops }
  | .loopEnd => .ok (closeLoop n) { s with openLoops := s.openLoops.tail }
  | .mul =>
    if n = -1 ∧ i.offset = 0 then .ok (.instr (.copy .v (.const 0)) :: putCell w .v .p) s
    else
      let product := Line.instr (.word .mul .v2 .v (.const n))
      match scaled w i.offset with
      | .error fault => .fail [product] fault
      | .ok bytes =>
        let update : List Line :=
          [product,
            .instr (.offset .add .p2 .p bytes),
            .instr (.load .v3 .p2),
            .instr (.word .add .v3 .v3 (.temp .v2))]
            ++ putCell w .v3 .p2
        .ok (if i.offset = 0 then update ++ [.instr (.copy .v (.temp .v3))] else update) s
  | .div =>
    if i.offset = 0 then .ok (.instr (.word .udiv .v .v (.const n)) :: putCell w .v .p) s
    else .fail [] (.atInstruction .qbe i)
  | .guard =>
    .ok [.instr (.branch .v (.guardBody n) (.guardEnd n)), .label (.guardBody n)] s
  | .label => .ok [.label (.guardEnd n)] s
  | .store =>
    let constant := Arg.const (w.truncate n : Nat)
    if i.offset = 0 then .ok (.instr (.copy .v constant) :: putCell w .v .p) s
    else
      match scaled w i.offset with
      | .error fault => .fail [] fault
      | .ok bytes =>
        .ok [.instr (.offset .add .p2 .p bytes), .instr (.copy .v2 constant),
          .instr (.store .v2 .p2)] s
  | .scanRight | .scanLeft | .printRun => .fail [] (.atInstruction .qbe i)

/-- What stands before the code of the stream. -/
def header (options : EmitOptions) : Written Line State :=
  match Size.mul options.memorySize options.width.bytes with
  | .error cause => .fail [] (.overflow cause)
  | .ok bytes =>
    .ok [.data bytes, .blank, .functionOpen, .label .start,
      .instr .tapeStart, .instr (.copy .v (.const 0))] {}

/-- What stands behind the code of the stream. -/
def finish (s : State) : Written Line (List Warning) :=
  let warnings := if s.openLoops.isEmpty then [] else [Warning.unbalanced]
  .ok (s.openLoops.flatMap closeLoop ++ [.instr .ret, .functionClose]) warnings

/-- The emitter, comments apart. -/
def plainEmitter (options : EmitOptions) : Emitter State Line where
  start := header options
  step := step options.width
  finish := finish

/-- The emitter. -/
def emitter (options : EmitOptions) : Emitter State Line :=
  (plainEmitter options).withComments options.comments (fun _ i => .comment i.describe)

/-- The code of a stream. -/
def emission (options : EmitOptions) (code : List Instruction) : Emission Line :=
  (emitter options).emit code

end Qbe

end TapeCompiler
