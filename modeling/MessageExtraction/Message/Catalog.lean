import MessageExtraction.Json.Printer
import MessageExtraction.Json.Reader
import MessageExtraction.Message.Basic
import MessageExtraction.Validation

/-!
Catalogs as text: a list of objects, one for each message, without the fields that have no value.
-/

namespace MessageExtraction

def Point.toJson (p : Point) : Json := .object [("line", .int p.line), ("column", .int p.column)]

def Json.isNull : Json → Bool
  | .null => true
  | _ => false

namespace Message

def toMembers (m : Message) : List (Text × Json) :=
  [("id", m.id.toJson), ("description", m.description),
    ("defaultMessage", m.defaultMessage.elim .null .text), ("file", m.file.elim .null .text),
    ("start", m.start.elim .null Point.toJson), ("end", m.stop.elim .null Point.toJson)]

def toJson (m : Message) : Json := .object (m.toMembers.filter fun (_, j) ↦ !j.isNull)

/-- A catalog as it is written to a file. -/
def dump (messages : List Message) : Except Fault Text :=
  (Json.list (messages.map toJson)).print (.indented 2)

open Validation

/-- An id of any of three types; what is none of them is wrong in three ways. -/
def checkId : Json → Checked MessageId
  | .text t => .ok (.text t)
  | .int n => .ok (.int n)
  | .bool b => .ok (.int (if b then 1 else 0))
  | .float x => .ok (.float x)
  | _ => .error [⟨["str"], .stringType⟩, ⟨["int"], .intType⟩, ⟨["float"], .floatType⟩]

def checkPoint : Json → Checked Point :=
  model fun members ↦ do
    let (line, column) ← both (required members "line" int) (required members "column" int)
    return ⟨line, column⟩

def ofMembers (members : List (Text × Json)) : Checked Message := do
  let (id, description, defaultMessage, file, start, stop) ←
    both (required members "id" checkId)
      (both (field members "description" "description" .null .ok)
        (both (field members "defaultMessage" "default_message" none (optional text))
          (both (field members "file" "file" none (optional text))
            (both (field members "start" "start" none (optional checkPoint))
              (field members "end" "end" none (optional checkPoint))))))
  return ⟨id, description, defaultMessage, file, start, stop⟩

def ofJson : Json → Checked Message := model ofMembers

/-- Why a text is no catalog. -/
inductive LoadError where
  | unreadable (e : Json.ReadError)
  /-- The text is JSON, but nothing with items. -/
  | noItems
  | invalid (issues : List Issue)
  deriving DecidableEq, Repr

/-- The items of a value; those of an object are its names and those of a text its characters. -/
def items? : Json → Option (List Json)
  | .list items => some items
  | .object members => some (members.map fun (name, _) ↦ .text name)
  | .text t => some (t.map fun c ↦ .text [c])
  | _ => none

/-- Reads a catalog; the first item that is no message ends it. -/
def load (t : Text) : Except LoadError (List Message) := do
  let j ← (Json.read t).mapError .unreadable
  match items? j with
  | none => throw .noItems
  | some items => items.mapM fun item ↦ (ofJson item).mapError .invalid

end Message

end MessageExtraction
