/-
TapeCompiler.Backend.Llvm — LLVM code with debug information.

The nodes that every module has come first and have fixed numbers. Places,
loop scopes and loops get the numbers after them as they come up, so a node
only ever refers to nodes that are numbered already.

Each instruction of the stream starts from the address in `%p` and leaves
the tape up to date; no temporary lives on into the next instruction. A
loop left open is closed at the end, with a warning. Scan, print and
division at a distance have no counterpart.
-/
import TapeCompiler.Emission
import TapeCompiler.Code.Llvm

namespace TapeCompiler

namespace Llvm

/-! ## 1. Fixed nodes -/

/-- The program named in debug information. -/
def producer : String := "bfcomp 2.0.0"

/-! The numbers of the fixed nodes, in their order in `fixedNodeList`. -/

def globalExpressionNode : NodeId := 0
def globalVariableNode : NodeId := 1
def compileUnitNode : NodeId := 2
def fileNode : NodeId := 3
def globalsNode : NodeId := 4
def tapeTypeNode : NodeId := 5
def cellTypeNode : NodeId := 6
def tapeElementsNode : NodeId := 7
def tapeRangeNode : NodeId := 8
def dwarfVersionNode : NodeId := 9
def debugInfoVersionNode : NodeId := 10
def identNode : NodeId := 11
def mainNode : NodeId := 12
def mainTypeNode : NodeId := 13
def mainTypesNode : NodeId := 14
def emptyNode : NodeId := 15
def intTypeNode : NodeId := 16
def pointerVariableNode : NodeId := 17
def pointerTypeNode : NodeId := 18
def mustProgressNode : NodeId := 19

/-- How many nodes every module has. -/
def fixedNodes : Nat := 20

/-- A path cut at its last slash, into directory and name. -/
def splitPath (path : String) : String × String :=
  let reversed := path.toList.reverse
  let name := reversed.takeWhile (· != '/')
  match reversed.dropWhile (· != '/') with
  | [] => (".", path)
  | _ :: directory => (String.ofList directory.reverse, String.ofList name.reverse)

/-- The name of the cell type in debug information. -/
def cellTypeName : Width → String
  | .bits8 => "uint8_t"
  | .bits16 => "uint16_t"
  | .bits32 => "uint32_t"

/-- The nodes that every module has, for a tape of this many bits. -/
def fixedNodeList (options : EmitOptions) (tapeBits : Nat) : List Node :=
  let (directory, name) := splitPath options.sourceName
  [.globalExpression globalVariableNode,
    .globalVariable compileUnitNode fileNode tapeTypeNode,
    .compileUnit fileNode producer globalsNode,
    .sourceFile name directory,
    .tuple [globalExpressionNode],
    .arrayType cellTypeNode tapeBits tapeElementsNode,
    .unsignedType (cellTypeName options.width) options.width.bits,
    .tuple [tapeRangeNode],
    .subrange options.memorySize,
    .moduleFlag 7 "Dwarf Version" 4,
    .moduleFlag 2 "Debug Info Version" 3,
    .text producer,
    .subprogram fileNode mainTypeNode compileUnitNode emptyNode,
    .subroutineType mainTypesNode,
    .tuple [intTypeNode],
    .tuple [],
    .signedType "int" 32,
    .localVariable mainNode fileNode pointerTypeNode,
    .pointerType cellTypeNode,
    .text "llvm.loop.mustprogress"]

/-! ## 2. State -/

/-- A loop whose body is being written. -/
structure LoopScope where
  label : Int
  /-- The place of its opening bracket. -/
  start : NodeId
  /-- The scope of its body. -/
  block : NodeId
  deriving DecidableEq, Repr, Inhabited

/-- What is remembered between instructions. -/
structure State where
  /-- The nodes after the fixed ones. -/
  nodes : Array Node := #[]
  /-- The open loops, innermost first. -/
  loops : List LoopScope := []
  /-- The place of the lines being written. -/
  location : NodeId := 0
  /-- How many temporaries were assigned. -/
  temps : Nat := 0
  deriving Repr, Inhabited

namespace State

/-- The number of the node to be added next. -/
def nextNode (s : State) : NodeId := fixedNodes + s.nodes.size

/-- Adds a node. -/
def addNode (s : State) (n : Node) : State := { s with nodes := s.nodes.push n }

/-- The innermost scope. -/
def scope (s : State) : NodeId :=
  match s.loops with
  | [] => mainNode
  | innermost :: _ => innermost.block

/-- Line and column of a place; both are zero if it is unknown. -/
def lineColumn : Option Position → Nat × Nat
  | some p => (p.line, p.column)
  | none => (0, 0)

/-- Makes a place the one of the lines that follow. -/
def locate (s : State) (position : Option Position) : State :=
  let (line, column) := lineColumn position
  let id := s.nextNode
  let node := Node.location line column s.scope
  { s with nodes := s.nodes.push node, location := id }

end State

/-! ## 3. Code of single instructions

Each function below takes the number of temporaries assigned before. -/

/-- A constant as the signed number of the width of a cell. -/
def constant (w : Width) (n : Int) : Int := n.bmod w.modulus

/-- The address at a distance from the current cell, and the temporary that
holds it, which is the last one assigned. -/
def addressOps (t : Temp) (offset : Int) : List Op × Temp :=
  if offset = 0 then ([.loadPointer (t + 1)], t + 1)
  else ([.loadPointer (t + 1), .element (t + 2) (t + 1) offset], t + 2)

/-- Adds a constant to the current cell. -/
def addOps (w : Width) (t : Temp) (n : Int) : List Op × Temp :=
  ([.loadPointer (t + 1), .load (t + 2) (t + 1),
      .binary .add (t + 3) (t + 2) (.const (constant w n)), .store (.temp (t + 3)) (t + 1)],
    t + 3)

/-- Moves the pointer. -/
def moveOps (t : Temp) (distance : Int) : List Op × Temp :=
  let (ops, address) := addressOps t distance
  (ops ++ [.storePointer address], address)

/-- How many temporaries a write takes. -/
def writeTemps (w : Width) : Nat := if w = .bits32 then 3 else 4

/-- Writes the current cell once. -/
def writeOps (w : Width) (t : Temp) : List Op :=
  if w = .bits32 then
    [.loadPointer (t + 1), .load (t + 2) (t + 1), .putchar (t + 3) (t + 2)]
  else
    [.loadPointer (t + 1), .load (t + 2) (t + 1), .widen (t + 3) (t + 2),
      .putchar (t + 4) (t + 3)]

/-- How many temporaries a read takes. -/
def readTemps (w : Width) : Nat := if w = .bits32 then 5 else 6

/-- Reads once into the current cell, which stays at the end of the input. -/
def readOps (w : Width) (t : Temp) : List Op :=
  if w = .bits32 then
    [.getchar (t + 1), .isNegative (t + 2) (t + 1), .loadPointer (t + 3), .load (t + 4) (t + 3),
      .select (t + 5) (t + 2) (t + 4) (t + 1), .store (.temp (t + 5)) (t + 3)]
  else
    [.getchar (t + 1), .isNegative (t + 2) (t + 1), .narrow (t + 3) (t + 1),
      .loadPointer (t + 4), .load (t + 5) (t + 4), .select (t + 6) (t + 2) (t + 5) (t + 3),
      .store (.temp (t + 6)) (t + 4)]

/-- The same code `count` times over, when one time takes `used` temporaries. -/
def repeatOps (count used : Nat) (once : Temp → List Op) (t : Temp) : List Op × Temp :=
  ((List.range count).flatMap (fun k => once (t + k * used)), t + count * used)

/-- Adds a multiple of the current cell to another one. -/
def mulOps (w : Width) (t : Temp) (n offset : Int) : List Op × Temp :=
  if n = -1 ∧ offset = 0 then ([.loadPointer (t + 1), .store (.const 0) (t + 1)], t + 1)
  else
    ([.loadPointer (t + 1), .load (t + 2) (t + 1), .element (t + 3) (t + 1) offset,
        .load (t + 4) (t + 3), .binary .mul (t + 5) (t + 2) (.const (constant w n)),
        .binary .add (t + 6) (t + 4) (.temp (t + 5)), .store (.temp (t + 6)) (t + 3)],
      t + 6)

/-- Divides the current cell. -/
def divOps (w : Width) (t : Temp) (n : Int) : List Op × Temp :=
  ([.loadPointer (t + 1), .load (t + 2) (t + 1),
      .binary .udiv (t + 3) (t + 2) (.const (constant w n)), .store (.temp (t + 3)) (t + 1)],
    t + 3)

/-- Sets a cell. -/
def storeOps (w : Width) (t : Temp) (n offset : Int) : List Op × Temp :=
  let (ops, address) := addressOps t offset
  (ops ++ [.store (.const (constant w n)) address], address)

/-- Goes to one of two labels, by the current cell. -/
def branchOps (t : Temp) (nonzero zero : Label) : List Op × Temp :=
  ([.loadPointer (t + 1), .load (t + 2) (t + 1), .isNonzero (t + 3) (t + 2),
      .branchIf (t + 3) nonzero zero],
    t + 3)

/-! ## 4. Steps -/

/-- Code at the current place. -/
def State.place (s : State) (code : List Op × Temp) : List Line × State :=
  (code.1.map (fun op => .op op s.location), { s with temps := code.2 })

/-- The start of a block. -/
def labelLines (l : Label) : List Line := [.blank, .label l]

/-- Code at the place of an instruction. -/
def straight (s : State) (i : Instruction) (code : Temp → List Op × Temp) :
    Written Line State :=
  let s := s.locate i.position
  let (lines, s) := s.place (code s.temps)
  .ok lines s

/-- The start of a loop: its scope, its test and the label of its body. -/
def openLoop (s : State) (i : Instruction) : List Line × State :=
  let label := i.value
  let s := s.locate i.position
  let enter := Line.op (.branch (.loopHead label)) s.location
  let (line, column) := State.lineColumn i.position
  let loop : LoopScope := ⟨label, s.location, s.nextNode⟩
  let s := s.addNode (.block s.scope fileNode line column)
  let s := { s with loops := loop :: s.loops }
  let (test, s) := s.place (branchOps s.temps (.loopBody label) (.loopExit label))
  (enter :: labelLines (.loopHead label) ++ test ++ labelLines (.loopBody label), s)

/-- The end of the innermost loop, if one is open. -/
def closeLoop (s : State) (position : Option Position) : List Line × State :=
  match s.loops with
  | [] => ([], s)
  | loop :: outer =>
    let s := { s with loops := outer }
    let s := s.locate position
    let info := s.nextNode
    let s := s.addNode (.loop info loop.start s.location mustProgressNode)
    (.op (.branchBack (.loopHead loop.label) info) s.location
        :: labelLines (.loopExit loop.label), s)

/-- The code of an instruction. -/
def step (w : Width) (s : State) (i : Instruction) : Written Line State :=
  let n := i.value
  match i.opcode with
  | .loopStart => let (lines, s) := openLoop s i; .ok lines s
  | .loopEnd => let (lines, s) := closeLoop s i.position; .ok lines s
  | .add => straight s i (fun t => addOps w t n)
  | .sub => straight s i (fun t => addOps w t (-n))
  | .right | .left =>
    match i.displacement with
    | .error cause => .fail [] (.overflow cause)
    | .ok distance => straight s i (fun t => moveOps t distance)
  | .write => straight s i (repeatOps n.toNat (writeTemps w) (writeOps w))
  | .read => straight s i (repeatOps n.toNat (readTemps w) (readOps w))
  | .mul => straight s i (fun t => mulOps w t n i.offset)
  | .div =>
    if i.offset = 0 then straight s i (fun t => divOps w t n)
    else .fail [] (.atInstruction .llvm i)
  | .guard =>
    let s := s.locate i.position
    let (test, s) := s.place (branchOps s.temps (.guardBody n) (.guardEnd n))
    .ok (test ++ labelLines (.guardBody n)) s
  | .label =>
    let s := s.locate i.position
    .ok (.op (.branch (.guardEnd n)) s.location :: labelLines (.guardEnd n)) s
  | .store => straight s i (fun t => storeOps w t n i.offset)
  | .scanRight | .scanLeft | .printRun => .fail [] (.atInstruction .llvm i)

/-! ## 5. Modules -/

/-- What stands before the code of the stream. -/
def header (options : EmitOptions) : Written Line State :=
  let s : State := State.locate {} (some Position.first)
  .ok [.moduleId options.sourceName,
    .sourceFile options.sourceName,
    .blank,
    .tape options.memorySize globalExpressionNode,
    .blank,
    .functionOpen mainNode,
    .label .entry,
    .allocate,
    .op (.declarePointer pointerVariableNode) s.location,
    .op .tapeStart s.location] s

/-- Closes all open loops. -/
def closeAll (s : State) : List Line × State :=
  s.loops.foldl
    (fun (lines, s) _ => let (more, s) := closeLoop s none; (lines ++ more, s))
    ([], s)

/-- The end of the function and what follows it, up to the nodes. -/
def footer (s : State) : List Line :=
  [.op .ret s.location,
    .functionClose,
    .blank,
    .fixed "declare void @llvm.dbg.declare(metadata, metadata, metadata) #1",
    .fixed "declare i32 @getchar()",
    .fixed "declare i32 @putchar(i32 noundef)",
    .blank,
    .fixed "attributes #0 = \x7b noinline nounwind optnone \x7d",
    .fixed ("attributes #1 = \x7b nocallback nofree nosync nounwind readnone speculatable "
      ++ "willreturn \x7d"),
    .blank,
    .named "llvm.module.flags" [dwarfVersionNode, debugInfoVersionNode],
    .named "llvm.dbg.cu" [compileUnitNode],
    .named "llvm.ident" [identNode],
    .blank]

/-- The numbered nodes. -/
def nodeLines (nodes : List Node) : List Line :=
  nodes.mapIdx (fun id n => .node id n)

/-- What stands behind the code of the stream. -/
def finish (options : EmitOptions) (s : State) : Written Line (List Warning) :=
  let warnings := if s.loops.isEmpty then [] else [Warning.unbalanced]
  let (closing, s) := closeAll s
  match Size.mul options.memorySize options.width.bits with
  | .error cause => .fail (closing ++ footer s) (.overflow cause)
  | .ok tapeBits =>
    let nodes := fixedNodeList options tapeBits ++ s.nodes.toList
    .ok (closing ++ footer s ++ nodeLines nodes) warnings

/-- The emitter, comments apart. -/
def plainEmitter (options : EmitOptions) : Emitter State Line where
  start := header options
  step := step options.width
  finish := finish options

/-- The emitter. -/
def emitter (options : EmitOptions) : Emitter State Line :=
  (plainEmitter options).withComments options.comments (fun _ i => .comment i.describe)

/-- The code of a stream. -/
def emission (options : EmitOptions) (code : List Instruction) : Emission Line :=
  (emitter options).emit code

end Llvm

end TapeCompiler
