/-
TapeCompiler.Pass — the optimizer passes and their usual order.

`Stream.optimize` is what a compilation does: merge to the end, then flatten
the loops if the target can express the result.
-/
import TapeCompiler.Merge
import TapeCompiler.Flatten

namespace TapeCompiler

/-! ## 1. Single passes -/

/-- A pass over a stream. -/
inductive Pass where
  /-- One merging pass. -/
  | merge
  /-- Merging to the end. -/
  | mergeAll
  /-- Flattening of loops for a target. -/
  | flatten (target : Target)
  deriving DecidableEq, Repr, Inhabited

/-- What a pass made of a stream. -/
structure Passed where
  code : List Instruction
  /-- What was flattened, if that was the pass. -/
  stats : Option LoopStats := none
  deriving DecidableEq, Repr, Inhabited

/-- Applies a pass. -/
def Pass.apply (pass : Pass) (code : List Instruction) : Except FlattenError Passed :=
  match pass with
  | .merge => do
    let code ← FlattenError.ofOverflow (Stream.merge code)
    return { code }
  | .mergeAll => do
    let code ← FlattenError.ofOverflow (Stream.mergeAll code)
    return { code }
  | .flatten target => do
    let (code, stats) ← Stream.flattenWithStats target code
    return { code, stats := some stats }

/-- Applies passes one after the other. -/
def Pass.applyAll (passes : List Pass) (code : List Instruction) :
    Except FlattenError (List Instruction) :=
  passes.foldlM (fun code pass => do return (← pass.apply code).code) code

/-! ## 2. The pipeline -/

/-- The stages of an optimized stream. -/
structure Optimized where
  /-- The stream after merging. -/
  merged : List Instruction
  /-- The stream after flattening and what was flattened, if it was allowed. -/
  flattened : Option (List Instruction × LoopStats)
  deriving DecidableEq, Repr, Inhabited

/-- The last stage. -/
def Optimized.code (o : Optimized) : List Instruction :=
  match o.flattened with
  | some (code, _) => code
  | none => o.merged

/-- Optimizes a stream for a target. -/
def Stream.optimize (target : Target) (code : List Instruction) :
    Except FlattenError Optimized := do
  let merged ← FlattenError.ofOverflow (Stream.mergeAll code)
  if target.acceptsFlattening then
    let flattened ← Stream.flattenWithStats target merged
    return ⟨merged, some flattened⟩
  else return ⟨merged, none⟩

end TapeCompiler
