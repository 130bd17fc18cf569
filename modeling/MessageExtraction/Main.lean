import MessageExtraction.CommandLine.Commands
import MessageExtraction.FileSystem.Snapshot
import MessageExtraction.Json.Reader

/-!
The command line. The files of a project are read from standard input, on one line, with the syntax
trees that a parser has made of its sources; the files that a command writes are written.
-/

namespace MessageExtraction.CommandLine

/-- What a command is run on: the files, the working directory and the time. -/
structure Surroundings where
  files : FileSystem
  cwd : Path
  time : Text
  isVerbose : Bool

def Surroundings.ofJson (j : Json) : Surroundings :=
  let textOf (name : String) (fallback : Text) : Text :=
    ((j.member? (Text.ofString name)).bind Json.text?).getD fallback
  let cwd := Path.ofText (textOf "cwd" "/")
  { files := Snapshot.files cwd ((j.member? "files").getD .null)
    cwd := cwd
    time := textOf "time" "00:00:00"
    isVerbose := !(textOf "debug" []).isEmpty }

/-- What is printed as lines, the cells of a row kept apart by bars. -/
def printedLines : Printed → List Text
  | .text t => [t]
  | .table title rows => title :: rows.map (Text.joinWith (" | " : Text))

def writeChange (change : List Text × File) : IO Unit := do
  let (place, f) := change
  IO.FS.createDirAll (Text.toString (Path.mk [CodePoint.slash] place.dropLast).toText)
  IO.FS.writeBinFile (Text.toString (Path.mk [CodePoint.slash] place).toText) ⟨f.bytes.toArray⟩

/-- Runs the command that arguments ask for and gives its exit code. -/
def runRequest (around : Surroundings) (request : Request) : IO UInt32 := do
  let (s, ending) := run around.files around.cwd request.command
  for t in s.output.flatMap printedLines do
    IO.println (Text.toString t)
  for t in errorLines around.time (around.isVerbose || request.isVerbose) s do
    IO.eprintln (Text.toString t)
  (around.files.changes s.files).forM writeChange
  return UInt32.ofNat ending.exitCode

end MessageExtraction.CommandLine

open MessageExtraction CommandLine in
def main (args : List String) : IO UInt32 := do
  match Request.ofArguments? (args.map Text.ofString) with
  | none => return 2
  | some request =>
    let input ← (← IO.getStdin).getLine
    match Json.read (Text.ofString input) with
    | .error _ => return 2
    | .ok j => runRequest (.ofJson j) request
