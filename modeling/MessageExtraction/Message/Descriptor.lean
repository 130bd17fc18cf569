import MessageExtraction.Folding.Fold
import MessageExtraction.Json.Basic
import MessageExtraction.Message.Complaint
import MessageExtraction.Pattern.Printer
import MessageExtraction.Value.Shown

namespace MessageExtraction

/-- What a declaration says of a message; a field that is not there is null. -/
structure Descriptor where
  id : Value
  description : Value
  defaultMessage : Value

namespace Descriptor

def empty : Descriptor := ⟨.null, .null, .null⟩

/-- The fields of a descriptor. -/
inductive Field where
  | id
  | description
  | defaultMessage
  deriving DecidableEq, Repr

def Field.ofName? (t : Text) : Option Field :=
  if t = "id" then some .id
  else if t = "description" then some .description
  else if t = "defaultMessage" then some .defaultMessage
  else none

def set (d : Descriptor) (v : Value) : Field → Descriptor
  | .id => { d with id := v }
  | .description => { d with description := v }
  | .defaultMessage => { d with defaultMessage := v }

/-- A field as it is written: the node of its name and that of its value, if it has one. -/
structure Written where
  name : Place
  value : Option Place

/-- Where to point when a field is wrong. -/
def Written.anchor (w : Written) : Place := w.value.getD w.name

/-- Sets what is written for a field; a field that is written again keeps its place. -/
def insertWritten (f : Field) (w : Written) : List (Field × Written) → List (Field × Written)
  | [] => [(f, w)]
  | (g, v) :: rest => if g = f then (g, w) :: rest else (g, v) :: insertWritten f w rest

end Descriptor

namespace Source

open Descriptor

def faulty (x : Except Fault α) : Except Failure α := x.mapError .fault

/-- The value of an expression that has to be constant. -/
def constantValue (s : Source) (p : Place) : Except Failure Value :=
  match s.fold p with
  | .ok v => .ok v
  | .error .notConstant => .error (s.complain p .notEvaluable)
  | .error (.fault f) => .error (.fault f)

/-- The kinds of nodes that are names by themselves. -/
def nameKinds : List String :=
  ["identifier", "property_identifier", "shorthand_property_identifier", "jsx_identifier",
    "type_identifier", "jsx_namespace_name"]

/-- The name of a field; an identifier stands for itself. -/
def fieldName (s : Source) (p : Place) : Except Failure Value :=
  if nameKinds.contains p.kind then do return .text (← faulty (s.textOf p)) else s.constantValue p

/-- The expression that the braces of an attribute hold. -/
def embedded (s : Source) (p : Place) : Except Failure Place :=
  if p.kind = "jsx_expression" then
    match p.parts with
    | [q] => .ok q
    | _ => .error (s.complain p .notEvaluable)
  else .ok p

def trimmed : Value → Value
  | .text t => .text (Text.trim t)
  | v => v

/-- The value of a field, as data and with texts trimmed; a field without one is true. -/
def fieldValue (s : Source) : Option Place → Except Failure Value
  | none => .ok (.bool true)
  | some p => do
    let q ← s.embedded p
    return trimmed (← s.constantValue q).kept

/-- The failure that a complaint is; there has to be a node to point at. -/
def complainAt (s : Source) (p : Option Place) (c : Complaint) : Failure :=
  match p with
  | some p => s.complain p c
  | none => .fault .missingNode

def twoBackslashes : Text := [CodePoint.backslash, CodePoint.backslash]

/-- Whether doubled backslashes in an attribute are why a message is malformed. -/
def looksEscaped (isAttribute : Bool) (p : Option Place) (message : Text) : Bool :=
  isAttribute && p.any (·.kind == "string") && Text.hasPart twoBackslashes message

/-- A message in its canonical form, or the complaint about it. -/
def canonical (s : Source) (p : Option Place) (isAttribute : Bool) (anchor : Option Place)
    (message : Text) : Except Failure Text :=
  match Pattern.parse message with
  | .ok pattern => .ok (Pattern.print pattern)
  | .error (.fault f) => .error (.fault f)
  | .error (.malformed e) =>
    .error <| if looksEscaped isAttribute p message then s.complainAt p .escapedAttribute
      else s.complainAt (p.or anchor) (.malformed e)

/-- The default message of a declaration in its canonical form. -/
def templateValue (s : Source) (p : Option Place) (isAttribute : Bool) (anchor : Option Place) :
    Except Failure Text := do
  match ← s.fieldValue p with
  | .text message => s.canonical p isAttribute anchor message
  | v => do
    let shown ← faulty v.shown
    throw (s.complainAt (p.or anchor) (.notAText shown))

/-- The field that a name stands for; a list or an object can be no name. -/
def fieldOf (v : Value) : Except Failure (Option Field) :=
  match v with
  | .text t => .ok (Field.ofName? t)
  | .list _ | .object _ => .error (.fault .unhashable)
  | _ => .ok none

/-- The fields of a descriptor among what is written, in the order in which they first appear. -/
def collectFields (s : Source) (written : List Written) :
    Except Failure (List (Field × Written)) :=
  written.foldlM (fun fields w ↦ do
    match ← fieldOf (← s.fieldName w.name) with
    | some f => return insertWritten f w fields
    | none => return fields) []

def evaluateField (s : Source) (d : Descriptor) (f : Field) (w : Written) :
    Except Failure Descriptor :=
  match f with
  | .defaultMessage => do
    return d.set (.text (← s.templateValue w.value true (some w.anchor))) f
  | _ => do return d.set (← s.fieldValue w.value) f

/-- The descriptor that the fields of a markup element make. -/
def evaluateDescriptor (s : Source) (fields : List (Field × Written)) :
    Except Failure Descriptor :=
  fields.foldlM (fun d (f, w) ↦ s.evaluateField d f w) .empty

end Source

end MessageExtraction
