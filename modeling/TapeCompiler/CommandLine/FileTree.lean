/-
TapeCompiler.CommandLine.FileTree — directories, files, links and devices.

A `FileTree` says what stands at which place, and which directory is the
current one. A path is followed name by name, and the first name that
cannot be followed decides how it fails:

* every name, also an empty one, needs a directory to start from;
* an empty name and `.` stay, `..` goes up, and above the root is the root;
* a link stands for the place that it names, also at the end of a path;
* a name has at most 255 bytes, a path at most 4095;
* a path that starts with a slash starts at the root, any other one at the
  current directory.

`FileTree.standard` is a tree with the usual directories and devices and an
empty current directory.
-/
import TapeCompiler.CommandLine.Host

namespace TapeCompiler

namespace CommandLine

/-! ## 1. Trees -/

/-- A place in a tree, as the names from the root down. -/
abbrev Place := List String

/-- What can be opened like a file without being one. -/
inductive Device where
  /-- Has nothing to read, and forgets what is written. -/
  | null
  /-- Never stops being read, and forgets what is written. -/
  | endless
  /-- Never stops being read, and has no room for anything. -/
  | full
  /-- The terminal of a process that has none. -/
  | terminal
  | standardInput
  | standardOutput
  | standardError
  deriving DecidableEq, Repr, Inhabited

/-- What a directory makes of a name that is not in it. -/
inductive DirectoryKind where
  /-- It may become the name of a new file. -/
  | plain
  /-- There is no such name, not even for a new file. -/
  | fixed
  /-- No new file may be made. -/
  | sealed
  deriving DecidableEq, Repr, Inhabited

/-- What a tree has at a place. -/
inductive Node where
  | directory (kind : DirectoryKind)
  | file (content : ByteArray)
  /-- A program that is running. Its content is no text. -/
  | program
  | device (kind : Device)
  /-- Another name for a place that holds no link itself. -/
  | link (target : Place)

/-- Stands for the content of a program: these bytes are no text. -/
def Node.programContent : ByteArray := ⟨#[0x7f, 0xff]⟩

/-- What stands at which place. The latest node for a place counts. -/
structure FileTree where
  nodes : List (Place × Node)
  /-- The current directory. -/
  current : Place

/-- The most bytes that a name may have. -/
def nameLimit : Nat := 255

/-- The most bytes that a path may have. -/
def pathLimit : Nat := 4095

namespace FileTree

/-- The names in the text of a path. -/
def names (path : String) : List String :=
  (path.toList.splitOn '/').map String.ofList

/-- The node at a place; a directory is there as soon as anything is in it. -/
def node? (t : FileTree) (place : Place) : Option Node :=
  match t.nodes.find? (fun entry => entry.1 == place) with
  | some (_, node) => some node
  | none =>
    if t.nodes.any (fun entry => place.isPrefixOf entry.1) then some (.directory .plain)
    else none

/-- The place that a place stands for. -/
def target (t : FileTree) (place : Place) : Place :=
  match t.node? place with
  | some (.link target) => target
  | _ => place

/-- Puts a node at a place. -/
def put (t : FileTree) (place : Place) (node : Node) : FileTree :=
  { t with nodes := (place, node) :: t.nodes }

/-! ## 2. Paths -/

/-- Where the names of a path start. -/
def origin (t : FileTree) (path : String) : Place :=
  if path.startsWith "/" then [] else t.current

/-- Follows names from a place. The place that comes out need not hold
anything. -/
def follow (t : FileTree) (place : Place) : List String → Except FileError Place
  | [] => .ok place
  | name :: rest =>
    match t.node? place with
    | none => .error .notFound
    | some (.directory kind) =>
      if name = "" ∨ name = "." then t.follow place rest
      else if name = ".." then t.follow place.dropLast rest
      else if kind = .plain ∧ nameLimit < name.utf8ByteSize then .error .nameTooLong
      else t.follow (t.target (place ++ [name])) rest
    | some _ => .error .notADirectory

/-- Paths of no bytes or of too many lead nowhere. -/
def checkPath (path : String) : Except FileError Unit :=
  if path.isEmpty then .error .notFound
  else if pathLimit < path.utf8ByteSize then .error .nameTooLong
  else .ok ()

/-- The place that a path leads to. -/
def locate (t : FileTree) (path : String) : Except FileError Place := do
  checkPath path
  t.follow (t.origin path) (names path)

/-- The place that a path leads to when something is to be created there. A
path that ends in a slash asks for a directory, whatever its last name is. -/
def locateNew (t : FileTree) (path : String) : Except FileError Place := do
  checkPath path
  let given := names path
  let trimmed := (given.reverse.dropWhile (fun name => name = "")).reverse
  let _ ← t.follow (t.origin path) (trimmed.dropLast ++ [""])
  if trimmed.length < given.length then throw .isADirectory
  t.follow (t.origin path) trimmed

/-- A new file may be made at this place. -/
def checkNew (t : FileTree) (place : Place) : Except FileError Unit :=
  match t.node? place.dropLast with
  | some (.directory .plain) => .ok ()
  | some (.directory .sealed) => .error .denied
  | _ => .error .notFound

/-- The place that a path means when every directory on the way is made. -/
def placeOf (t : FileTree) (path : String) : Place :=
  (names path).foldl
    (fun place name =>
      if name = "" ∨ name = "." then place
      else if name = ".." then place.dropLast
      else place ++ [name])
    (t.origin path)

/-! ## 3. The standard tree -/

/-- The usual directories, apart from those that links stand for. -/
def standardDirectories : List (Place × DirectoryKind) :=
  let root := ["boot", "dev", "etc", "home", "media", "mnt", "opt", "root", "run", "srv", "tmp",
    "usr", "var"]
  let usr := ["bin", "games", "include", "lib", "lib64", "local", "sbin", "share", "src"]
  let usrLocal := ["bin", "etc", "games", "include", "lib", "sbin", "share", "src"]
  let var := ["backups", "cache", "lib", "local", "log", "mail", "opt", "spool", "tmp"]
  let plain := root.map (fun name => [name])
    ++ usr.map (fun name => ["usr", name])
    ++ usrLocal.map (fun name => ["usr", "local", name])
    ++ var.map (fun name => ["var", name])
    ++ [["dev", "shm"], ["run", "lock"]]
  plain.map (fun place => (place, .plain))
    ++ [(["proc"], .fixed), (["proc", "self"], .fixed), (["proc", "self", "fd"], .fixed),
      (["proc", "sys"], .fixed), (["sys"], .sealed), (["sys", "kernel"], .sealed),
      (["dev", "pts"], .sealed)]

/-- The usual devices. -/
def standardDevices : List (Place × Device) :=
  [(["dev", "null"], .null), (["dev", "full"], .full), (["dev", "zero"], .endless),
    (["dev", "random"], .endless), (["dev", "urandom"], .endless), (["dev", "tty"], .terminal),
    (["proc", "self", "fd", "0"], .standardInput), (["proc", "self", "fd", "1"], .standardOutput),
    (["proc", "self", "fd", "2"], .standardError)]

/-- The usual links, with the current directory of a process. -/
def standardLinks (current : Place) : List (Place × Place) :=
  let channels := ["proc", "self", "fd"]
  [(["bin"], ["usr", "bin"]), (["lib"], ["usr", "lib"]), (["lib64"], ["usr", "lib64"]),
    (["sbin"], ["usr", "sbin"]), (["var", "run"], ["run"]), (["var", "lock"], ["run", "lock"]),
    (["dev", "fd"], channels), (["dev", "stdin"], channels ++ ["0"]),
    (["dev", "stdout"], channels ++ ["1"]), (["dev", "stderr"], channels ++ ["2"]),
    (["proc", "self", "cwd"], current), (["proc", "self", "root"], [])]

/-- The usual files, in short. -/
def standardFiles : List (Place × String) :=
  [(["etc", "passwd"], "root:x:0:0:root:/root:/bin/sh\n"), (["etc", "group"], "root:x:0:\n"),
    (["etc", "hosts"], "127.0.0.1 localhost\n"), (["etc", "hostname"], "localhost\n")]

/-- Programs that are there and run. -/
def standardPrograms : List Place :=
  [["usr", "bin", "sh"], ["usr", "bin", "env"], ["proc", "self", "exe"]]

/-- A tree with the usual directories and devices. The current directory is
a new one for temporary files; its name is one that no path can spell. -/
def standard : FileTree where
  nodes :=
    let current := ["tmp", ""]
    (current, .directory .plain)
      :: standardDirectories.map (fun (place, kind) => (place, .directory kind))
      ++ standardDevices.map (fun (place, kind) => (place, .device kind))
      ++ (standardLinks current).map (fun (place, target) => (place, .link target))
      ++ standardFiles.map (fun (place, text) => (place, .file text.toUTF8))
      ++ standardPrograms.map (fun place => (place, .program))
  current := ["tmp", ""]

end FileTree

end CommandLine

end TapeCompiler
