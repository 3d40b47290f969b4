/-
TapeCompiler.CommandLine.Arguments — what the user asks for.

Arguments are taken from left to right. An option that needs a value takes
the next argument, whatever it looks like; behind `--` nothing is an option
any more. The first fault found is the one reported.
-/
import TapeCompiler.Target
import TapeCompiler.Operand

namespace TapeCompiler

namespace CommandLine

/-! ## 1. Requests and faults -/

/-- The settings of a compilation. -/
structure Arguments where
  file : String
  target : Target := .qbe
  interpret : Bool := false
  optimize : Bool := false
  comments : Bool := false
  debug : Bool := false
  memory : Nat := 30000
  /-- Bits in a cell, not yet checked. -/
  width : Nat := 8
  out : Option String := none
  deriving DecidableEq, Repr, Inhabited

/-- What the arguments ask for. -/
inductive Request where
  | help
  | compile (settings : Arguments)
  deriving DecidableEq, Repr, Inhabited

/-- Why the value of an option is refused. -/
inductive ValueFault where
  | emptyNumber
  | invalidDigit
  | tooLarge
  | unknownTarget (name : UnknownTarget)
  | duplicate
  deriving DecidableEq, Repr, Inhabited

/-- The wording of a value fault. -/
def ValueFault.message : ValueFault → String
  | .emptyNumber => "cannot parse integer from empty string"
  | .invalidDigit => "invalid digit found in string"
  | .tooLarge => "number too large to fit in target type"
  | .unknownTarget name => name.message
  | .duplicate => "duplicate values provided"

/-- Why the arguments are refused. -/
inductive ArgumentFault where
  | unrecognized (argument : String)
  | missingValue (option : String)
  | badValue (option value : String) (fault : ValueFault)
  | missingFile
  | afterHelp
  deriving DecidableEq, Repr, Inhabited

/-- The wording of an argument fault, with its own line end if it has one. -/
def ArgumentFault.message : ArgumentFault → String
  | .unrecognized argument => s!"Unrecognized argument: {argument}\n"
  | .missingValue option => s!"No value provided for option '{option}'.\n"
  | .badValue option value reason =>
    s!"Error parsing option '{option}' with value '{value}': {reason.message}\n"
  | .missingFile => "Required positional arguments not provided:\n    file\n"
  | .afterHelp => "Trailing arguments are not allowed after `help`."

/-! ## 2. Options -/

/-- An option without a value. -/
inductive Switch where
  | interpret
  | optimize
  | comments
  | debug
  deriving DecidableEq, Repr, Inhabited

/-- The switch of a given name. -/
def Switch.ofName? : String → Option Switch
  | "-i" | "--interpret" => some .interpret
  | "-o" | "--optimize" => some .optimize
  | "-c" | "--comments" => some .comments
  | "-d" | "--debug" => some .debug
  | _ => none

/-- An option with a value. -/
inductive Setting where
  | target
  | memory
  | width
  | out
  deriving DecidableEq, Repr, Inhabited

/-- The setting of a given name. -/
def Setting.ofName? : String → Option Setting
  | "-g" | "--target" => some .target
  | "-m" | "--memory" => some .memory
  | "-w" | "--width" => some .width
  | "--out" => some .out
  | _ => none

/-- Reads the rest of a decimal number behind the value `n`; the first
character that is no digit or makes the number too large decides. -/
def parseDigits (greatest : Nat) (n : Nat) : List Char → Except ValueFault Nat
  | [] => .ok n
  | c :: rest =>
    if c.isDigit then
      let n := 10 * n + (c.toNat - '0'.toNat)
      if n ≤ greatest then parseDigits greatest n rest else .error .tooLarge
    else .error .invalidDigit

/-- Reads a decimal number up to `greatest`, which may have a plus sign. -/
def parseNumber (greatest : Nat) (text : String) : Except ValueFault Nat :=
  match text.toList with
  | [] => .error .emptyNumber
  | ['+'] => .error .invalidDigit
  | '+' :: digits => parseDigits greatest 0 digits
  | digits => parseDigits greatest 0 digits

/-- The greatest number that `--width` can take. -/
def greatestWidth : Nat := 4294967295

/-! ## 3. Taking arguments -/

/-- What was taken from the arguments so far. -/
structure Taken where
  file : Option String := none
  target : Option Target := none
  memory : Option Nat := none
  width : Option Nat := none
  out : Option String := none
  interpret : Bool := false
  optimize : Bool := false
  comments : Bool := false
  debug : Bool := false
  help : Bool := false
  /-- `--` was seen. -/
  optionsEnded : Bool := false
  deriving DecidableEq, Repr, Inhabited

namespace Taken

/-- Turns a switch on. -/
def turnOn (t : Taken) : Switch → Taken
  | .interpret => { t with interpret := true }
  | .optimize => { t with optimize := true }
  | .comments => { t with comments := true }
  | .debug => { t with debug := true }

/-- A value for something that has none yet. -/
def once {α : Type} (old : Option α) (new : Except ValueFault α) : Except ValueFault (Option α) :=
  match old with
  | some _ => .error .duplicate
  | none => new.map some

/-- Gives a setting its value. -/
def set (t : Taken) (setting : Setting) (value : String) : Except ValueFault Taken :=
  match setting with
  | .target => do
    let target ← once t.target ((Target.ofName value).mapError .unknownTarget)
    return { t with target }
  | .memory => do
    let memory ← once t.memory (parseNumber Size.greatest value)
    return { t with memory }
  | .width => do
    let width ← once t.width (parseNumber greatestWidth value)
    return { t with width }
  | .out => do
    let out ← once t.out (.ok value)
    return { t with out }

/-- Takes the arguments one after the other. -/
def takeAll (t : Taken) : List String → Except ArgumentFault Taken
  | [] => .ok t
  | argument :: rest =>
    if t.optionsEnded then
      match t.file with
      | none => takeAll { t with file := some argument } rest
      | some _ => .error (.unrecognized argument)
    else if argument = "--help" ∨ argument = "help" then takeAll { t with help := true } rest
    else if argument = "--" then takeAll { t with optionsEnded := true } rest
    else if argument.startsWith "-" then
      if t.help then .error .afterHelp
      else
        match Switch.ofName? argument with
        | some switch => takeAll (t.turnOn switch) rest
        | none =>
          match Setting.ofName? argument with
          | none => .error (.unrecognized argument)
          | some setting =>
            match rest with
            | [] => .error (.missingValue argument)
            | value :: rest =>
              match t.set setting value with
              | .error fault => .error (.badValue argument value fault)
              | .ok t => takeAll t rest
    else
      match t.file with
      | none => takeAll { t with file := some argument } rest
      | some _ => .error (.unrecognized argument)

/-- The request that the arguments amount to. -/
def request (t : Taken) : Except ArgumentFault Request :=
  if t.help then .ok .help
  else
    match t.file with
    | none => .error .missingFile
    | some file =>
      .ok (.compile
        { file
          target := t.target.getD .qbe
          interpret := t.interpret
          optimize := t.optimize
          comments := t.comments
          debug := t.debug
          memory := t.memory.getD 30000
          width := t.width.getD 8
          out := t.out })

end Taken

/-- The request of a list of arguments. -/
def Request.ofArguments (arguments : List String) : Except ArgumentFault Request := do
  let taken ← Taken.takeAll {} arguments
  taken.request

/-! ## 4. Help -/

/-- The hint behind every argument fault. -/
def hint : String := "Run bfcomp --help for more information.\n"

/-- The answer to a request for help. -/
def usage : String :=
  "\n".intercalate
    ["Usage: bfcomp [-g <target>] [-i] [-o] [-c] [-d] [-m <memory>] [-w <width>] "
        ++ "[--out <out>] [--] <file>",
      "",
      "An optimizing BF compiler. Generates QBE IL by default.",
      "",
      "Positional Arguments:",
      "  file              the BF source file to compile",
      "",
      "Options:",
      "  -g, --target      the target to generate: qbe, c, js, ll, bf or tokens",
      "  -i, --interpret   run the program with the interpreter instead of generating",
      "                    code",
      "  -o, --optimize    run the peephole and loop optimizers",
      "  -c, --comments    precede generated code with comments naming the source",
      "                    positions",
      "  -d, --debug       print optimizer statistics to stderr",
      "  -m, --memory      number of cells on the tape",
      "  -w, --width       cell width in bits: 8, 16 or 32",
      "  --out             the file to write to, `-` or nothing for stdout",
      "  --help, help      display usage information",
      "",
      ""]

end CommandLine

end TapeCompiler
