import VerbScript.Text.Ends

/-!
# VerbScript.Machine.Channel

The two channels of a run: where its lines come from and where its text goes. Both belong to the
caller and may fail whenever they are asked for something, so all that is laid down of them is what
they are asked for (`Writer`, `LineSource`). `Sink` and `Input` are the channels that scripts are
run on: a text in memory and a list of bytes.
-/

namespace VerbScript

/-- Why a channel failed, in the words of the channel. -/
structure ChannelFault where
  message : String
  deriving DecidableEq, Repr

/-- What text is written to. It answers with a fault if it fails, and with what it then is: a text
that could not be written whole may have been written in part, and a channel that failed may work
again. -/
class Writer (W : Type) where
  write : W → String → Option ChannelFault × W
  flush : W → Option ChannelFault × W

/-- What lines are read from. It answers with the next line, with a fault, or with nothing if there
is no line left, and with what it then is. -/
class LineSource (I : Type) where
  nextLine : I → Option (Except ChannelFault String) × I

/-- The bytes that have not been read. -/
abbrev Input := List UInt8

namespace Input

/-- A line is not UTF-8. -/
def invalidText : ChannelFault := ⟨"stream did not contain valid UTF-8"⟩

/-- Splits the bytes after the first line feed. -/
def splitLine : Input → List UInt8 × Input
  | [] => ([], [])
  | byte :: rest =>
    if byte = 10 then ([byte], rest)
    else
      let (line, rest) := splitLine rest
      (byte :: line, rest)

/-- The text of a line without the line feeds and carriage returns at its end. -/
def decodeLine (bytes : List UInt8) : Except ChannelFault String :=
  match String.fromUTF8? ⟨bytes.toArray⟩ with
  | some text =>
    .ok (String.ofList (Text.dropFinal (fun c => c = '\n' || c = '\r') text.toList))
  | none => .error invalidText

/-- Reads the next line: nothing at the end of the input. A line that is no text is read as well. -/
def nextLine (input : Input) : Option (Except ChannelFault String) × Input :=
  match input with
  | [] => (none, [])
  | _ =>
    let (line, rest) := splitLine input
    (some (decodeLine line), rest)

@[default_instance]
instance : LineSource Input := ⟨nextLine⟩

/-- The bytes of a text. -/
def ofText (text : String) : Input := text.toUTF8.toList

end Input

/-- Text in memory: what was written so far, how many more bytes there is room for (no bound if
`none`), and whether flushing fails. -/
structure Sink where
  written : String := ""
  room : Option Nat := none
  flushFails : Bool := false
  deriving DecidableEq, Repr

namespace Sink

/-- There is no room for a text. -/
def full : ChannelFault := ⟨"sink full"⟩

def flushFailed : ChannelFault := ⟨"flush failed"⟩

/-- Writes a text whole, or nothing if there is no room for it. -/
def write (s : Sink) (text : String) : Option ChannelFault × Sink :=
  match s.room with
  | none => (none, { s with written := s.written ++ text })
  | some room =>
    if text.utf8ByteSize ≤ room then
      (none, { s with written := s.written ++ text, room := some (room - text.utf8ByteSize) })
    else (some full, s)

def flush (s : Sink) : Option ChannelFault × Sink :=
  (if s.flushFails then some flushFailed else none, s)

@[default_instance]
instance : Writer Sink := ⟨write, flush⟩

end Sink
end VerbScript
