/-
TapeCompiler.Source — reading a source text into an instruction stream.

A source text is read character by character. Eight characters are
symbols, all others are comments. The `k`-th opening bracket gets label
`k`, and a closing bracket takes the label of the bracket it closes.

* `Source.parse` accepts a text exactly when its brackets balance.
* A closing bracket that closes nothing is reported as soon as it is read;
  brackets left open are reported at the end, the innermost one by name.
-/
import TapeCompiler.Instruction

namespace TapeCompiler

/-! ## 1. Errors -/

/-- What is wrong with the brackets of a text. -/
inductive BracketFault where
  | unmatchedClose
  | unmatchedOpen
  deriving DecidableEq, Repr, Inhabited

/-- The wording of a fault. -/
def BracketFault.message : BracketFault → String
  | .unmatchedClose => "Unmatched ']'"
  | .unmatchedOpen => "Unmatched '['"

/-- A text that is no program, and the bracket to blame. -/
structure ParseError where
  fault : BracketFault
  position : Position
  deriving DecidableEq, Repr, Inhabited

/-- The fault, led by its position. -/
def ParseError.message (e : ParseError) : String :=
  e.position.toText ++ ": " ++ e.fault.message

/-! ## 2. Reading -/

/-- A loop that is open while a text is read. -/
structure OpenLoop where
  label : Nat
  position : Position
  deriving DecidableEq, Repr, Inhabited

/-- What is known after some characters of a text. -/
structure Reader where
  /-- The place of the next character. -/
  cursor : Position := Position.first
  /-- How many loops were opened so far. -/
  loops : Nat := 0
  /-- The loops that are still open, innermost first. -/
  pending : List OpenLoop := []
  /-- The instructions read so far. -/
  code : Array Instruction := #[]
  deriving Repr, Inhabited

namespace Reader

/-- The reader after an instruction of this opcode and value. -/
def push (r : Reader) (opcode : Opcode) (value : Nat) : Reader :=
  { r with code := r.code.push ⟨opcode, value, 0, some r.cursor⟩ }

/-- The effect of one character on everything but the cursor. -/
def accept (r : Reader) (c : Char) : Except ParseError Reader :=
  match Opcode.ofSymbol? c with
  | none => .ok r
  | some .loopStart =>
    let label := r.loops + 1
    let opened : OpenLoop := ⟨label, r.cursor⟩
    .ok { r.push .loopStart label with loops := label, pending := opened :: r.pending }
  | some .loopEnd =>
    match r.pending with
    | [] => .error ⟨.unmatchedClose, r.cursor⟩
    | opened :: rest => .ok { r.push .loopEnd opened.label with pending := rest }
  | some opcode => .ok (r.push opcode 1)

/-- The reader after one more character. -/
def feed (r : Reader) (c : Char) : Except ParseError Reader := do
  let cursor := r.cursor.after c
  let r ← r.accept c
  return { r with cursor }

/-- The finished stream: no loop may be left open. -/
def finish (r : Reader) : Except ParseError (List Instruction) :=
  match r.pending with
  | [] => .ok r.code.toList
  | opened :: _ => .error ⟨.unmatchedOpen, opened.position⟩

end Reader

/-- The instruction stream of a list of characters. -/
def Source.parseChars (text : List Char) : Except ParseError (List Instruction) := do
  let r ← text.foldlM Reader.feed {}
  r.finish

/-- The instruction stream of a source text. -/
def Source.parse (text : String) : Except ParseError (List Instruction) :=
  Source.parseChars text.toList

end TapeCompiler
