import VerbScript.CommandLine

/-!
# VerbScript.Main

The program: reads the file and the standard input that a request needs, and shows the response.
-/

namespace VerbScript

/-- Shows a response and gives its exit status. -/
def showResponse (response : Response) : IO UInt32 := do
  IO.print response.output
  (← IO.getStdout).flush
  IO.eprint response.errors
  return response.exit.toUInt32

/-- All bytes of a stream, after those already read. -/
partial def readAll (stream : IO.FS.Stream) (bytes : ByteArray) : IO ByteArray := do
  let chunk ← stream.read 65536
  if chunk.isEmpty then return bytes else readAll stream (bytes ++ chunk)

/-- The script of a request, if its file can be read. -/
def loadScript (request : Request) : IO (Option String) := do
  if request.file then
    try
      return some (← IO.FS.readFile request.contents)
    catch _ =>
      return none
  else return some request.contents

end VerbScript

open VerbScript

def main (arguments : List String) : IO UInt32 := do
  match CommandLine.verdict arguments with
  | .request request =>
    match ← loadScript request with
    | none => showResponse request.unreadable
    | some script =>
      let input ←
        if request.readsInput script then readAll (← IO.getStdin) .empty else pure .empty
      showResponse (request.respond script input.toList Machine.ampleFuel)
  | verdict => showResponse verdict.answer
