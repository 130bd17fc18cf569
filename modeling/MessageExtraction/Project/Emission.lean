import MessageExtraction.Extraction.Run
import MessageExtraction.FileSystem.Write
import MessageExtraction.Message.Catalog

namespace MessageExtraction

/-- Why nothing came out of a file. -/
inductive FileFailure where
  | source (f : Failure)
  | file (e : FileError)
  deriving DecidableEq, Repr

def WriteError.toFailure : WriteError → FileFailure
  | .file e => .file e
  | .fault f => .source (.fault f)

namespace FileSystem

/-- Writes messages as a catalog, with the directories that it needs. -/
def writeCatalog (fs : FileSystem) (messages : List Message) (p : Path) :
    FileSystem × Except WriteError Unit :=
  match fs.makeDirectories p.parent with
  | (fs, .error e) => (fs, .error (.file e))
  | (fs, .ok ()) =>
    match Message.dump messages with
    | .error f => (fs, .error (.fault f))
    | .ok t => fs.writeText p t none

end FileSystem

/-- What is reported of a catalog that was written. -/
def LogEvent.ofCatalog (messages : List Message) (p : Path) : LogEvent :=
  .written p.toText messages.length

namespace Extraction

/-- Where the catalog of a file goes; a file without messages has none. -/
def catalogPath? (x : Extraction) (cwd : Path) : Option Path :=
  if x.messages.isEmpty then none
  else x.options.messagesDir.map fun directory ↦
    Path.ofCatalog directory (.ofText x.source.filename) cwd

/-- Ends a file: writes its catalog, if it is to have one, and reports. -/
def emit (x : Extraction) (fs : FileSystem) (cwd : Path) :
    FileSystem × Extraction × Except FileFailure FileResult :=
  let x := x.begin
  match x.catalogPath? cwd with
  | none => (fs, x.logExtracted, .ok (x.result none))
  | some p =>
    match fs.writeCatalog x.messages p with
    | (fs, .error e) => (fs, x, .error e.toFailure)
    | (fs, .ok ()) =>
      let x := { x with logs := x.logs ++ [LogEvent.ofCatalog x.messages p] }
      (fs, x.logExtracted, .ok (x.result (some p)))

/-- Begins, visits and ends a file. -/
def runOn (x : Extraction) (fs : FileSystem) (cwd : Path) :
    FileSystem × Extraction × Except FileFailure FileResult :=
  match x.begin.traverse with
  | (x, some e) => (fs, x, .error (.source e))
  | (x, none) => x.emit fs cwd

end Extraction

/-- The source that a file is, with its name as given and the directory it is seen from. -/
def Source.ofFile (f : File) (filename : Text) (cwd : Path) : Source :=
  let (tree, hasErrors) := f.tree.getD (default, false)
  ⟨filename, (Path.ofSource (.ofText filename) cwd).toText, f.bytes, tree, hasErrors⟩

end MessageExtraction
