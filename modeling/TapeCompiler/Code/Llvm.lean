/-
TapeCompiler.Code.Llvm — the part of the LLVM language that is generated.

The generated function keeps the address of the current cell in `%p`. Every
other value is a numbered temporary, `%t1`, `%t2`, …, and is assigned once.
Debug information is a list of numbered metadata nodes; instructions and
other nodes refer to a node by its number.
-/
import TapeCompiler.Width

namespace TapeCompiler

namespace Llvm

/-! ## 1. Names -/

/-- The number of a metadata node. -/
abbrev NodeId := Nat

/-- The text of a reference to a node. -/
def NodeId.render (id : NodeId) : String := s!"!{id}"

/-- The text of a list of references. -/
def NodeId.renderTuple (ids : List NodeId) : String :=
  "!\x7b" ++ ", ".intercalate (ids.map NodeId.render) ++ "\x7d"

/-- The labels of the generated function. -/
inductive Label where
  | entry
  /-- The test of a loop. -/
  | loopHead (label : Int)
  | loopBody (label : Int)
  | loopExit (label : Int)
  | guardBody (label : Int)
  | guardEnd (label : Int)
  deriving DecidableEq, Repr, Inhabited

/-- The name of a label. -/
def Label.name : Label → String
  | .entry => "entry"
  | .loopHead n => s!"loop{n}.head"
  | .loopBody n => s!"loop{n}.body"
  | .loopExit n => s!"loop{n}.exit"
  | .guardBody n => s!"guard{n}.body"
  | .guardEnd n => s!"guard{n}.end"

/-- A temporary, by its number. -/
abbrev Temp := Nat

/-- The name of a temporary. -/
def Temp.render (t : Temp) : String := s!"%t{t}"

/-- A value of the width of a cell. -/
inductive Value where
  | temp (t : Temp)
  | const (n : Int)
  deriving DecidableEq, Repr, Inhabited

/-- The text of a value. -/
def Value.render : Value → String
  | .temp t => Temp.render t
  | .const n => toString n

/-! ## 2. Instructions -/

/-- Operations on two cell values. -/
inductive BinaryOp where
  | add
  | mul
  | udiv
  deriving DecidableEq, Repr, Inhabited

/-- The name of an operation. -/
def BinaryOp.name : BinaryOp → String
  | .add => "add"
  | .mul => "mul"
  | .udiv => "udiv"

/-- An instruction of the generated function. -/
inductive Op where
  /-- Tells the debugger about `%p`. -/
  | declarePointer (var : NodeId)
  /-- Points `%p` at the first cell. -/
  | tapeStart
  | loadPointer (dst : Temp)
  | storePointer (src : Temp)
  /-- The address at a distance in cells. -/
  | element (dst base : Temp) (distance : Int)
  | load (dst addr : Temp)
  | store (src : Value) (addr : Temp)
  | binary (op : BinaryOp) (dst lhs : Temp) (rhs : Value)
  | isNonzero (dst src : Temp)
  /-- Tests whether a read met the end. -/
  | isNegative (dst src : Temp)
  /-- From a cell value to a call argument. -/
  | widen (dst src : Temp)
  /-- From a call result to a cell value. -/
  | narrow (dst src : Temp)
  | select (dst test yes no : Temp)
  | putchar (dst src : Temp)
  | getchar (dst : Temp)
  | branch (target : Label)
  /-- Goes back to the head of a loop. -/
  | branchBack (target : Label) (info : NodeId)
  | branchIf (test : Temp) (yes no : Label)
  | ret
  deriving DecidableEq, Repr, Inhabited

/-- The type of a cell. -/
def cellType (w : Width) : String := s!"i{w.bits}"

/-- The text of an instruction, without its location. -/
def Op.render (w : Width) : Op → String
  | .declarePointer var =>
    s!"call void @llvm.dbg.declare(metadata ptr %p, metadata {var.render}, "
      ++ "metadata !DIExpression())"
  | .tapeStart => "store ptr @mem, ptr %p, align 8"
  | .loadPointer dst => s!"{Temp.render dst} = load ptr, ptr %p, align 8"
  | .storePointer src => s!"store ptr {Temp.render src}, ptr %p, align 8"
  | .element dst base distance =>
    s!"{Temp.render dst} = getelementptr inbounds {cellType w}, ptr {Temp.render base}, "
      ++ s!"i64 {distance}"
  | .load dst addr => s!"{Temp.render dst} = load {cellType w}, ptr {Temp.render addr}, align 1"
  | .store src addr => s!"store {cellType w} {src.render}, ptr {Temp.render addr}, align 1"
  | .binary op dst lhs rhs =>
    s!"{Temp.render dst} = {op.name} {cellType w} {Temp.render lhs}, {rhs.render}"
  | .isNonzero dst src => s!"{Temp.render dst} = icmp ne {cellType w} {Temp.render src}, 0"
  | .isNegative dst src => s!"{Temp.render dst} = icmp slt i32 {Temp.render src}, 0"
  | .widen dst src => s!"{Temp.render dst} = zext {cellType w} {Temp.render src} to i32"
  | .narrow dst src => s!"{Temp.render dst} = trunc i32 {Temp.render src} to {cellType w}"
  | .select dst test yes no =>
    s!"{Temp.render dst} = select i1 {Temp.render test}, {cellType w} {Temp.render yes}, "
      ++ s!"{cellType w} {Temp.render no}"
  | .putchar dst src => s!"{Temp.render dst} = call i32 @putchar(i32 noundef {Temp.render src})"
  | .getchar dst => s!"{Temp.render dst} = call i32 @getchar()"
  | .branch target => s!"br label %{target.name}"
  | .branchBack target info => s!"br label %{target.name}, !llvm.loop {info.render}"
  | .branchIf test yes no =>
    s!"br i1 {Temp.render test}, label %{yes.name}, label %{no.name}"
  | .ret => "ret i32 0"

/-! ## 3. Metadata -/

/-- A metadata node. -/
inductive Node where
  | globalExpression (var : NodeId)
  | globalVariable (scope file type : NodeId)
  | compileUnit (file : NodeId) (producer : String) (globals : NodeId)
  | sourceFile (name directory : String)
  | tuple (elements : List NodeId)
  | arrayType (base : NodeId) (size : Nat) (elements : NodeId)
  | unsignedType (name : String) (size : Nat)
  | signedType (name : String) (size : Nat)
  | subrange (count : Nat)
  | moduleFlag (behaviour : Nat) (name : String) (value : Nat)
  | text (content : String)
  | subprogram (file type unit retained : NodeId)
  | subroutineType (types : NodeId)
  | localVariable (scope file type : NodeId)
  | pointerType (base : NodeId)
  /-- A place in the source text. -/
  | location (line column : Nat) (scope : NodeId)
  /-- The scope of a loop. -/
  | block (scope file : NodeId) (line column : Nat)
  /-- A loop, from its opening to its closing bracket. -/
  | loop (self start stop progress : NodeId)
  deriving DecidableEq, Repr, Inhabited

/-- The text of a node. -/
def Node.render : Node → String
  | .globalExpression var =>
    s!"!DIGlobalVariableExpression(var: {var.render}, expr: !DIExpression())"
  | .globalVariable scope file type =>
    s!"distinct !DIGlobalVariable(name: \"mem\", scope: {scope.render}, file: {file.render}, "
      ++ s!"line: 1, type: {type.render}, isLocal: false, isDefinition: true)"
  | .compileUnit file producer globals =>
    s!"distinct !DICompileUnit(language: DW_LANG_C, file: {file.render}, "
      ++ s!"producer: \"{producer}\", isOptimized: false, runtimeVersion: 0, "
      ++ s!"emissionKind: FullDebug, globals: {globals.render}, splitDebugInlining: false, "
      ++ "nameTableKind: None)"
  | .sourceFile name directory => s!"!DIFile(filename: \"{name}\", directory: \"{directory}\")"
  | .tuple elements => NodeId.renderTuple elements
  | .arrayType base size elements =>
    s!"!DICompositeType(tag: DW_TAG_array_type, baseType: {base.render}, size: {size}, "
      ++ s!"elements: {elements.render})"
  | .unsignedType name size =>
    s!"!DIBasicType(name: \"{name}\", size: {size}, encoding: DW_ATE_unsigned)"
  | .signedType name size =>
    s!"!DIBasicType(name: \"{name}\", size: {size}, encoding: DW_ATE_signed)"
  | .subrange count => s!"!DISubrange(count: {count})"
  | .moduleFlag behaviour name value =>
    s!"!\x7bi32 {behaviour}, !\"{name}\", i32 {value}\x7d"
  | .text content => s!"!\x7b!\"{content}\"\x7d"
  | .subprogram file type unit retained =>
    s!"distinct !DISubprogram(name: \"main\", scope: {file.render}, file: {file.render}, "
      ++ s!"line: 1, type: {type.render}, scopeLine: 1, spFlags: DISPFlagDefinition, "
      ++ s!"unit: {unit.render}, retainedNodes: {retained.render})"
  | .subroutineType types => s!"!DISubroutineType(types: {types.render})"
  | .localVariable scope file type =>
    s!"!DILocalVariable(name: \"p\", scope: {scope.render}, file: {file.render}, line: 1, "
      ++ s!"type: {type.render})"
  | .pointerType base =>
    s!"!DIDerivedType(tag: DW_TAG_pointer_type, baseType: {base.render}, size: 64)"
  | .location line column scope =>
    s!"!DILocation(line: {line}, column: {column}, scope: {scope.render})"
  | .block scope file line column =>
    s!"distinct !DILexicalBlock(scope: {scope.render}, file: {file.render}, line: {line}, "
      ++ s!"column: {column})"
  | .loop self start stop progress =>
    "distinct " ++ NodeId.renderTuple [self, start, stop, progress]

/-! ## 4. Lines -/

/-- A line of generated code. -/
inductive Line where
  | moduleId (name : String)
  | sourceFile (name : String)
  | blank
  /-- The tape. -/
  | tape (cells : Nat) (debug : NodeId)
  | functionOpen (debug : NodeId)
  | functionClose
  | label (name : Label)
  /-- Makes room for `%p`. -/
  | allocate
  /-- An instruction and its location. -/
  | op (code : Op) (location : NodeId)
  | comment (text : String)
  /-- A declaration or an attribute group, which is the same in all code. -/
  | fixed (text : String)
  /-- A named list of nodes. -/
  | named (name : String) (elements : List NodeId)
  | node (id : NodeId) (content : Node)
  deriving DecidableEq, Repr, Inhabited

/-- The text of a line, with its line end. -/
def Line.render (w : Width) : Line → String
  | .moduleId name => s!"; ModuleID = '{name}'\n"
  | .sourceFile name => s!"source_filename = \"{name}\"\n"
  | .blank => "\n"
  | .tape cells debug =>
    s!"@mem = global [{cells} x {cellType w}] zeroinitializer, align 16, !dbg {debug.render}\n"
  | .functionOpen debug => s!"define i32 @main() #0 !dbg {debug.render} \x7b\n"
  | .functionClose => "\x7d\n"
  | .label name => s!"{name.name}:\n"
  | .allocate => "  %p = alloca ptr, align 8\n"
  | .op code location => s!"  {code.render w}, !dbg {location.render}\n"
  | .comment text => s!"  ; {text}\n"
  | .fixed text => s!"{text}\n"
  | .named name elements => s!"!{name} = {NodeId.renderTuple elements}\n"
  | .node id content => s!"{id.render} = {content.render}\n"

end Llvm

end TapeCompiler
