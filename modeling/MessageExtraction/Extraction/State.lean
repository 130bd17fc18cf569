import MessageExtraction.Catalog
import MessageExtraction.Extraction.Log
import MessageExtraction.Language

namespace MessageExtraction

/-- The extraction of one file as it goes on. -/
structure Extraction where
  source : Source
  options : Options
  /-- The messages so far, once the file was begun. -/
  catalog : Option Catalog
  /-- The paths of the nodes that are done. -/
  marks : List (List Nat)
  warnings : List Text
  /-- The spans of bytes to take out of the source. -/
  removals : List (Nat × Nat)
  logs : List LogEvent

namespace Extraction

def fresh (source : Source) (options : Options) : Extraction :=
  ⟨source, options, none, [], [], [], []⟩

def isMarked (x : Extraction) (p : Place) : Bool := x.marks.contains p.path

def mark (x : Extraction) (p : Place) : Extraction :=
  if x.isMarked p then x else { x with marks := x.marks ++ [p.path] }

/-- Reports something about a node without ending the extraction. -/
def warn (x : Extraction) (message : Text) (p : Place) : Extraction :=
  { x with
    warnings := x.warnings ++ [message]
    logs := x.logs ++ [.warning message x.source.path (some (x.source.startOf p).line)] }

/-- The bytes of a node with the gap back to what stands before it. -/
def removalOf (p : Place) : Nat × Nat :=
  (match p.previous? with
    | some q => q.node.stop
    | none => p.node.start, p.node.stop)

/-- Schedules a node and the gap before it for removal. -/
def remove (x : Extraction) (p : Place) : Extraction :=
  if x.removals.contains (removalOf p) then x
  else { x with removals := x.removals ++ [removalOf p] }

/-- Work on an extraction. What was done before a failure stays done. -/
abbrev Work (α : Type) := EStateM Failure Extraction α

/-- Work on the catalog of an extraction, which has to be there. -/
def onCatalog {α : Type} (work : Catalog.Work α) : Work α := fun x ↦
  match x.catalog with
  | none => .error (.fault .noCatalog) x
  | some c =>
    match work.run c with
    | .ok a c => .ok a { x with catalog := some c }
    | .error e c => .error e { x with catalog := some c }

/-- Records a message in the catalog. -/
def record (d : Descriptor) (p : Place) : Work Unit := do
  let x ← get
  discard (onCatalog (Catalog.declare x.source x.options d p))

/-- Spans from the last to the first, of two that start alike the longer one before. -/
def laterSpan (a b : Nat × Nat) : Bool := b.1 < a.1 || (a.1 == b.1 && b.2 ≤ a.2)

def cut (bytes : Bytes) (span : Nat × Nat) : Bytes := bytes.take span.1 ++ bytes.drop span.2

/-- The source with all that was scheduled for removal taken out, from the end to the start. -/
def code (x : Extraction) : Text :=
  Utf8.decodeReplacing ((x.removals.mergeSort laterSpan).foldl cut x.source.bytes)

end Extraction

end MessageExtraction
