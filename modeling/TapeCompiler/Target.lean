/-
TapeCompiler.Target — the output formats.

A target has one canonical name and sometimes a second one. Two loop
shapes, the scan `[>]` and the print `[.>]`, have a direct counterpart in
C only; symbols can express nothing that loop flattening produces.
-/

namespace TapeCompiler

/-- What a stream is turned into. -/
inductive Target where
  /-- The intermediate language of QBE. -/
  | qbe
  | c
  | javaScript
  | llvm
  /-- The source language itself. -/
  | symbols
  /-- A readable listing of the stream. -/
  | listing
  deriving DecidableEq, Repr, Inhabited

/-- A name that no target has. -/
structure UnknownTarget where
  name : String
  deriving DecidableEq, Repr, Inhabited

/-- The report of an unknown name. -/
def UnknownTarget.message (e : UnknownTarget) : String :=
  s!"unknown target '{e.name}', expected one of qbe, c, js, ll, bf or tokens"

namespace Target

/-- The canonical name. -/
def name : Target → String
  | .qbe => "qbe"
  | .c => "c"
  | .javaScript => "js"
  | .llvm => "ll"
  | .symbols => "bf"
  | .listing => "tokens"

/-- The target of a canonical or alternative name. -/
def ofName (name : String) : Except UnknownTarget Target :=
  match name with
  | "qbe" | "il" => .ok .qbe
  | "c" => .ok .c
  | "js" => .ok .javaScript
  | "ll" | "llvm" => .ok .llvm
  | "bf" => .ok .symbols
  | "tokens" | "ir" => .ok .listing
  | other => .error ⟨other⟩

/-- The scan loops `[>]` and `[<]` become instructions of their own. -/
def hasScan : Target → Bool
  | .c => true
  | _ => false

/-- The print loop `[.>]` becomes an instruction of its own. -/
def hasPrint : Target → Bool
  | .c => true
  | _ => false

/-- Loops may be flattened for this target at all. -/
def acceptsFlattening : Target → Bool
  | .symbols => false
  | _ => true

/-- Every canonical name leads back to its target. -/
theorem ofName_name (t : Target) : ofName t.name = .ok t := by
  cases t <;> rfl

end Target

end TapeCompiler
