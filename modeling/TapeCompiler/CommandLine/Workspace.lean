/-
TapeCompiler.CommandLine.Workspace — a host in pure form.

A `Workspace` is a file tree with the standard channels of a process: what
there is to read, and what was written so far. Devices connect paths with
the channels, so a source may come from the standard input and code may go
to the standard error output.
-/
import TapeCompiler.CommandLine.FileTree

namespace TapeCompiler

namespace CommandLine

/-- A file tree with standard channels. -/
structure Workspace where
  tree : FileTree := .standard
  /-- What the standard input still has. -/
  input : ByteArray := ByteArray.empty
  output : ByteArray := ByteArray.empty
  reports : ByteArray := ByteArray.empty

namespace Workspace

/-- Adds a file, with every directory on the way to it. -/
def addFile (w : Workspace) (path : String) (content : ByteArray) : Workspace :=
  { w with tree := w.tree.put (w.tree.placeOf path) (.file content) }

/-- The content behind a path. Reading the standard input leaves nothing of
it. -/
def read (w : Workspace) (path : String) : Except FileError (ByteArray × Workspace) := do
  match w.tree.node? (← w.tree.locate path) with
  | some (.directory _) => throw .isADirectory
  | some (.file content) => return (content, w)
  | some .program => return (Node.programContent, w)
  | some (.device kind) =>
    match kind with
    | .null | .standardOutput | .standardError => return (ByteArray.empty, w)
    | .endless | .full => throw .outOfMemory
    | .terminal => throw .noDevice
    | .standardInput => return (w.input, { w with input := ByteArray.empty })
  | _ => throw .notFound

/-- The workspace with an empty file at a place. -/
def empty (w : Workspace) (place : Place) : Workspace :=
  { w with tree := w.tree.put place (.file ByteArray.empty) }

/-- Makes an empty file, or empties one. A device stays as it is. -/
def create (w : Workspace) (path : String) : Except FileError (Sink × Workspace) := do
  let place ← w.tree.locateNew path
  match w.tree.node? place with
  | some (.directory _) => throw .isADirectory
  | some .program => throw .busy
  | some (.device .terminal) => throw .noDevice
  | some (.device .full) => return (.fullDevice, w)
  | some (.device _) => return ({}, w)
  | some (.file _) => return ({}, w.empty place)
  | _ => do
    w.tree.checkNew place
    return ({}, w.empty place)

/-- Puts more content behind the standard output. -/
def appendOutput (w : Workspace) (bytes : ByteArray) : Workspace :=
  { w with output := w.output ++ bytes }

/-- Puts more content behind the standard error output. -/
def appendReport (w : Workspace) (bytes : ByteArray) : Workspace :=
  { w with reports := w.reports ++ bytes }

/-- Puts more content behind what a path leads to. -/
def append (w : Workspace) (path : String) (bytes : ByteArray) : Except FileError Workspace := do
  let place ← w.tree.locate path
  match w.tree.node? place with
  | some (.file content) =>
    return { w with tree := w.tree.put place (.file (content ++ bytes)) }
  | some (.device .standardOutput) => return w.appendOutput bytes
  | some (.device .standardError) => return w.appendReport bytes
  | _ => return w

/-- A change that may fail, as an action. -/
def attempt {α : Type} (change : Workspace → Except FileError (α × Workspace)) :
    StateM Workspace (Except FileError α) := do
  match change (← get) with
  | .ok (a, w) => set w; return .ok a
  | .error e => return .error e

/-- The workspace as a host. -/
def host : Host (StateM Workspace) where
  readFile path := attempt (fun w => w.read path)
  createFile path := attempt (fun w => w.create path)
  input := modifyGet (fun w => (w.input, { w with input := ByteArray.empty }))
  write name bytes :=
    match name with
    | some path => attempt (fun w => do return ((), ← w.append path bytes))
    | none => do modify (fun w => w.appendOutput bytes); return .ok ()
  report text := modify (fun w => w.appendReport text.toUTF8)

end Workspace

end CommandLine

end TapeCompiler
