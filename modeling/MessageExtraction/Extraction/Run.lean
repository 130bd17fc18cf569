import MessageExtraction.Extraction.Recognizers

namespace MessageExtraction

/-- What came out of one file. -/
structure FileResult where
  filename : Text
  messages : List Message
  code : Text
  warnings : List Text
  /-- Where the catalog was written, if it was. -/
  output : Option Path

namespace Extraction

/-- Opens the catalog, unless it is open. -/
def begin (x : Extraction) : Extraction :=
  { x with catalog := some (x.catalog.getD .empty) }

/-- Visits nodes in order up to the first failure. -/
def visitAll (x : Extraction) : List Place → Extraction × Option Failure
  | [] => (x, none)
  | p :: rest =>
    match x.visit p with
    | .ok _ x => x.visitAll rest
    | .error e x => (x, some e)

/-- Visits every node of the source. -/
def traverse (x : Extraction) : Extraction × Option Failure := x.begin.visitAll x.source.places

def messages (x : Extraction) : List Message := (x.catalog.getD .empty).messages

/-- Reports that the file is done. -/
def logExtracted (x : Extraction) : Extraction :=
  { x with logs := x.logs ++ [.extracted x.source.path x.messages.length] }

def result (x : Extraction) (output : Option Path) : FileResult :=
  ⟨x.source.filename, x.messages, x.code, x.warnings, output⟩

/-- Ends the file without writing its catalog. -/
def finish (x : Extraction) : Extraction × FileResult :=
  let x := x.begin.logExtracted
  (x, x.result none)

/-- Begins, visits and ends a file. -/
def run (x : Extraction) : Extraction × Except Failure FileResult :=
  match x.begin.traverse with
  | (x, some e) => (x, .error e)
  | (x, none) =>
    let (x, r) := x.finish
    (x, .ok r)

/-- Reports that a source has errors that its tree was recovered from. -/
def openSource (source : Source) (options : Options) : Extraction :=
  let x := fresh source options
  if source.hasErrors then
    { x with logs := [.warning "source has syntax errors, extracting from the recovered tree"
        source.path none] }
  else x

end Extraction

end MessageExtraction
