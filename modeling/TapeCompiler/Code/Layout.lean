/-
TapeCompiler.Code.Layout — indented lines.

Block-structured output is a list of lines, each with its indentation in
tabs. Lines are comments or code; only code lines matter to what the
output means.
-/

namespace TapeCompiler

/-! ## 1. Indentation -/

/-- A block depth, shown as tabs. -/
structure Indent where
  level : Nat
  deriving DecidableEq, Repr, Inhabited

namespace Indent

/-- One level further in. -/
def deeper (d : Indent) : Indent := ⟨d.level + 1⟩

/-- One level further out; the outermost level stays. -/
def shallower (d : Indent) : Indent := ⟨d.level - 1⟩

/-- The tabs themselves. -/
def toText (d : Indent) : String := String.ofList (List.replicate d.level '\t')

end Indent

/-! ## 2. Lines -/

/-- What a line is there for. -/
inductive LineKind where
  | code
  | comment
  deriving DecidableEq, Repr, Inhabited

/-- A line of text without its line end. -/
structure Line where
  indent : Indent
  text : String
  kind : LineKind := .code
  deriving DecidableEq, Repr, Inhabited

namespace Line

/-- A line of code at the margin. -/
def atMargin (text : String) : Line := ⟨⟨0⟩, text, .code⟩

/-- The line with its tabs and its line end. -/
def render (l : Line) : String := l.indent.toText ++ l.text ++ "\n"

end Line

end TapeCompiler
