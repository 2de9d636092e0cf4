import VerbScript.Program
import VerbScript.Script

/-!
# VerbScript.CommandLine

The command line: what the arguments ask for, and what a run shows for it. Nothing here reads or
writes; `Request.respond` maps a script and its input to texts and an exit status.
-/

namespace VerbScript

/-- What a command line asks for. -/
structure Request where
  /-- Whether `contents` names a file instead of being the script. -/
  file : Bool
  /-- Whether the listing of the program is wanted instead of a run. -/
  dump : Bool
  depthLimit : Nat
  contents : String
  deriving DecidableEq, Repr

/-- What is shown for a command line. -/
structure Response where
  exit : Nat := 0
  output : String := ""
  errors : String := ""
  deriving DecidableEq, Repr

namespace CommandLine

/-- The meaning of an argument list. -/
inductive Verdict where
  | request (r : Request)
  | version
  | help
  | misuse
  deriving DecidableEq, Repr

structure Draft where
  file : Bool := false
  dump : Bool := false
  depthLimit : Option Nat := none
  contents : Option String := none
  deriving DecidableEq, Repr

namespace Draft

/-- Turns on `--file`, which may be given once. -/
def setFile (d : Draft) : Option Draft := if d.file then none else some { d with file := true }

/-- Turns on `--dump`, which may be given once. -/
def setDump (d : Draft) : Option Draft := if d.dump then none else some { d with dump := true }

/-- Takes the script, or the file's name; there is only one. -/
def setContents (d : Draft) (text : String) : Option Draft :=
  match d.contents with
  | none => some { d with contents := some text }
  | some _ => none

/-- Reads a limit: digits after an optional plus sign, of at most 64 bits. -/
def limit? (text : String) : Option Nat :=
  let digits :=
    match text.toList with
    | '+' :: digits => digits
    | digits => digits
  match Decimal.natural? digits with
  | some n => if n < Nat.pow 2 64 then some n else none
  | none => none

/-- Sets the limit on calls, which may be given once. -/
def setLimit (d : Draft) (text : String) : Option Draft :=
  match d.depthLimit, limit? text with
  | none, some n => some { d with depthLimit := some n }
  | _, _ => none

/-- The verdict at the end of the arguments. -/
def finish (d : Draft) : Verdict :=
  match d.contents with
  | some contents => .request ⟨d.file, d.dump, d.depthLimit.getD defaultDepthLimit, contents⟩
  | none => .misuse

end Draft

/-- Reads one-letter flags, which may be joined: the draft they lead to, or a verdict. -/
def readShort (d : Draft) : List Char → Except Verdict Draft
  | [] => .ok d
  | 'f' :: rest =>
    match d.setFile with
    | some d => readShort d rest
    | none => .error .misuse
  | 'd' :: rest =>
    match d.setDump with
    | some d => readShort d rest
    | none => .error .misuse
  | 'V' :: _ => .error .version
  | 'h' :: _ => .error .help
  | _ => .error .misuse

/-- Reads arguments of which none is a flag. -/
def readPlain (d : Draft) : List String → Verdict
  | [] => d.finish
  | text :: rest =>
    match d.setContents text with
    | some d => readPlain d rest
    | none => .misuse

inductive Argument where
  /-- `--`, after which nothing is a flag. -/
  | terminator
  /-- `--name` or `--name=value`. -/
  | long (name : String) (value : Option String)
  /-- One-letter flags after a dash. -/
  | short (letters : List Char)
  | plain (text : String)
  deriving DecidableEq, Repr

/-- The form of an argument. A dash alone is no flag. -/
def Argument.ofText (text : String) : Argument :=
  match text.toList with
  | ['-', '-'] => .terminator
  | '-' :: '-' :: rest =>
    let name := String.ofList (rest.takeWhile (· ≠ '='))
    match rest.dropWhile (· ≠ '=') with
    | [] => .long name none
    | _ :: value => .long name (some (String.ofList value))
  | '-' :: c :: letters => .short (c :: letters)
  | _ => .plain text

def read (d : Draft) : List String → Verdict
  | [] => d.finish
  | text :: rest =>
    match Argument.ofText text with
    | .terminator => readPlain d rest
    | .long "file" none =>
      match d.setFile with
      | some d => read d rest
      | none => .misuse
    | .long "dump" none =>
      match d.setDump with
      | some d => read d rest
      | none => .misuse
    | .long "max-depth" (some value) =>
      match d.setLimit value with
      | some d => read d rest
      | none => .misuse
    | .long "max-depth" none =>
      match rest with
      | [] => .misuse
      | value :: rest =>
        match Argument.ofText value, d.setLimit value with
        | .plain _, some d => read d rest
        | _, _ => .misuse
    | .long "version" none => .version
    | .long "help" none => .help
    | .long _ _ => .misuse
    | .short letters =>
      match readShort d letters with
      | .ok d => read d rest
      | .error verdict => verdict
    | .plain text =>
      match d.setContents text with
      | some d => read d rest
      | none => .misuse

def verdict (arguments : List String) : Verdict := read {} arguments

def versionText : String := "technologic 0.1.0\n"

def usageText : String :=
  "Usage: technologic [-f|--file] [-d|--dump] [--max-depth <N>] [-V|--version] <contents>\n"

/-- The response to a verdict that runs no script. -/
def Verdict.answer : Verdict → Response
  | .version => { output := versionText }
  | .help => { output := usageText }
  | _ => { exit := 2, errors := usageText }

end CommandLine

namespace Request

/-- The response when the file of a request cannot be read. -/
def unreadable (r : Request) : Response :=
  { exit := 1
    errors :=
      s!"Failed to read the input file '{r.contents}'. Perhaps this file does not exist?\n" }

/-- The response when the script fails after `output`. -/
def failed (output message : String) : Response :=
  { exit := 1, output := output, errors := message ++ "\n" }

/-- The response to a request for the given script and input. -/
def respond (r : Request) (script : String) (input : Input) (fuel : Nat) : Response :=
  if r.dump then
    match Script.parse script with
    | .ok program => { output := program.listing }
    | .error f => failed "" f.message
  else
    match Script.run script r.depthLimit fuel ({ input := input } : Machine) with
    | (.success, m) => { output := m.sink.written }
    | (.failure f, m) => failed m.sink.written f.message
    | (.cutOff, m) => failed m.sink.written "Out of fuel."

/-- Whether the response depends on the input: a script runs that has a `scan` or a `press`. -/
def readsInput (r : Request) (script : String) : Bool :=
  !r.dump &&
    match Script.parse script with
    | .ok program => program.any fun instruction =>
        match instruction.value with
        | .keyword .scan | .keyword .press => true
        | _ => false
    | .error _ => false

end Request
end VerbScript
