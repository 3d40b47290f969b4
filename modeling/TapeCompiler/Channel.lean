/-
TapeCompiler.Channel — where a program reads from and writes to.

* An `Input` is the list of things that the coming reads meet: a byte, an
  end of file, an interruption or a failure. A read that is interrupted
  tries again, and behind the last item every read meets the end of file.
* A `Sink` collects what is written. It may have a limit. Bytes up to the
  limit are accepted, also as part of a longer write; a byte beyond it is a
  write failure. Flushing may fail as well.
* `Sink.fullDevice` stands before a device that never has room.
-/

namespace TapeCompiler

/-! ## 1. Input -/

/-- What one attempt to read meets. -/
inductive Reading where
  | byte (value : UInt8)
  | endOfFile
  | interrupted
  | failed (reason : String)
  deriving DecidableEq, Repr, Inhabited

/-- What the coming attempts to read meet, in order. -/
abbrev Input := List Reading

/-- What a read amounts to. -/
inductive Received where
  | byte (value : UInt8)
  | nothing
  | failed (reason : String)
  deriving DecidableEq, Repr, Inhabited

/-- Reads once, past any interruptions; gives the rest of the input too. -/
def Input.receive : Input → Received × Input
  | [] => (.nothing, [])
  | .byte value :: rest => (.byte value, rest)
  | .endOfFile :: rest => (.nothing, rest)
  | .failed reason :: rest => (.failed reason, rest)
  | .interrupted :: rest => Input.receive rest

/-- The input that delivers these bytes and then ends. -/
def Input.ofBytes (bytes : ByteArray) : Input :=
  bytes.data.toList.map Reading.byte

/-! ## 2. Output -/

/-- Why output was not taken. -/
inductive WriteFailure where
  /-- The limit of the sink is reached. -/
  | full
  /-- The limit is reached, and the sink takes nothing without saying why. -/
  | stalled
  | flush
  /-- The device behind the sink has no room. -/
  | noSpace
  deriving DecidableEq, Repr, Inhabited

/-- The wording of a write failure. -/
def WriteFailure.message : WriteFailure → String
  | .full => "sink full"
  | .stalled => "failed to write whole buffer"
  | .flush => "flush failed"
  | .noSpace => "No space left on device (os error 28)"

/-- What becomes of the output when it is to be passed on. -/
inductive Flushing where
  | passes
  | fails
  /-- It fails as soon as there is anything to pass on. -/
  | blocked
  deriving DecidableEq, Repr, Inhabited

/-- A place that collects bytes. -/
structure Sink where
  /-- What was accepted so far. -/
  written : Array UInt8 := #[]
  /-- How many bytes are accepted in all. -/
  limit : Option Nat := none
  /-- How a byte beyond the limit is refused. -/
  refusal : WriteFailure := .full
  flushing : Flushing := .passes
  deriving DecidableEq, Repr, Inhabited

namespace Sink

/-- The sink before a device that is always full. Up to 8192 bytes are held
back for the device, which refuses them when they are passed on. -/
def fullDevice : Sink where
  limit := some 8192
  refusal := .noSpace
  flushing := .blocked

/-- How many of `count` further bytes are accepted. -/
def room (s : Sink) (count : Nat) : Nat :=
  match s.limit with
  | none => count
  | some limit => min count (limit - s.written.size)

/-- The sink with one more byte. -/
def push (s : Sink) (byte : UInt8) : Sink :=
  { s with written := s.written.push byte }

/-- A block of this size is passed on at once. That happens before a full
device to a block that leaves no room to hold anything else back. -/
def passesThrough (s : Sink) (count : Nat) : Bool :=
  s.flushing == .blocked && s.limit.any (fun limit => limit ≤ count)

/-- Writes as many bytes of a block as are accepted; gives the failure, if
some were not, beside the sink. -/
def put (s : Sink) (block : Array UInt8) : Sink × Option WriteFailure :=
  if s.passesThrough block.size then (s, some s.refusal)
  else
    let room := s.room block.size
    let failure := if room = block.size then none else some s.refusal
    ({ s with written := s.written ++ block.extract 0 room }, failure)

/-- Writes blocks up to the first failure. -/
def putAll (s : Sink) : List (Array UInt8) → Sink × Option WriteFailure
  | [] => (s, none)
  | block :: rest =>
    match s.put block with
    | (s, none) => s.putAll rest
    | (s, some failure) => (s, some failure)

/-- Asks for the output to be passed on. -/
def flush (s : Sink) : Except WriteFailure Unit :=
  match s.flushing with
  | .passes => .ok ()
  | .fails => .error .flush
  | .blocked => if s.written.isEmpty then .ok () else .error .noSpace

end Sink

end TapeCompiler
