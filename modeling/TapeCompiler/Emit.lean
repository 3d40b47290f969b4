/-
TapeCompiler.Emit — a stream in the format of any target.
-/
import TapeCompiler.Backend.Listing
import TapeCompiler.Backend.C
import TapeCompiler.Backend.JavaScript
import TapeCompiler.Backend.Qbe
import TapeCompiler.Backend.Llvm
import TapeCompiler.Backend.Symbols

namespace TapeCompiler

/-- The text of a stream, in pieces, and how writing it ended. -/
def Stream.emission (target : Target) (options : EmitOptions) (code : List Instruction) :
    Emission String :=
  match target with
  | .qbe => (Qbe.emission options code).map (Qbe.Line.render options.width)
  | .c => (CCode.emission options code).map Line.render
  | .javaScript => (JavaScript.emission options code).map Line.render
  | .llvm => (Llvm.emission options code).map (Llvm.Line.render options.width)
  | .symbols => (Symbols.emission options code).map Symbols.Piece.render
  | .listing => (Listing.emission options code).map Line.render

/-- Writes a stream into a sink. -/
def Stream.emit (target : Target) (options : EmitOptions) (code : List Instruction)
    (sink : Sink) : Delivery :=
  (Stream.emission target options code).deliver sink

/-- The source text of a stream, without comments. -/
def Stream.decompile (code : List Instruction) : Except EmitFault String :=
  let written := Stream.emission .symbols {} code
  match written.outcome with
  | .ok _ => .ok written.text
  | .error fault => .error fault

end TapeCompiler
