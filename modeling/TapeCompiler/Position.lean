/-
TapeCompiler.Position — places in a source text, and warnings about them.

Lines count from 1, and so do the characters of a line. An instruction
that was not read from a source text has no position, and a report then
calls it `an unknown position`.
-/

namespace TapeCompiler

/-! ## 1. Positions -/

/-- A place in a source text: line and column, both counted from 1. -/
structure Position where
  line : Nat
  column : Nat
  deriving DecidableEq, Repr, Inhabited

namespace Position

/-- The place of a text's first character. -/
def first : Position := ⟨1, 1⟩

/-- The place of the character that follows `c`, when `c` stands at `p`. -/
def after (p : Position) (c : Char) : Position :=
  if c = '\n' then ⟨p.line + 1, 1⟩ else ⟨p.line, p.column + 1⟩

/-- The wording of a position in messages. -/
def toText (p : Position) : String :=
  s!"line {p.line}, column {p.column}"

/-- The short form `line:column`. -/
def compact (p : Position) : String :=
  s!"{p.line}:{p.column}"

/-- The wording of a position that may be missing. -/
def describe : Option Position → String
  | some p => p.toText
  | none => "an unknown position"

end Position

/-! ## 2. Warnings -/

/-- A remark about a program that does not stop the work on it. -/
structure Warning where
  message : String
  position : Option Position := none
  deriving DecidableEq, Repr, Inhabited

/-- A warning as it is shown, led by its position if it has one. -/
def Warning.toText (w : Warning) : String :=
  match w.position with
  | some p => p.toText ++ ": " ++ w.message
  | none => w.message

/-- The remark about a stream that leaves a block open. -/
def Warning.unbalanced : Warning := ⟨"Unbalanced brackets in code", none⟩

end TapeCompiler
