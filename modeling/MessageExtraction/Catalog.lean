import MessageExtraction.Message.Descriptor
import MessageExtraction.Message.Basic
import MessageExtraction.Options

namespace MessageExtraction

/-- A message with the point at which it was first declared. -/
structure Catalog.Entry where
  message : Message
  origin : Position

/-- The messages of one file in the order of their first declarations. -/
structure Catalog where
  entries : List Catalog.Entry

def Position.toPoint (p : Position) : Point := ⟨p.line, p.column⟩

namespace Catalog

def empty : Catalog := ⟨[]⟩

def messages (c : Catalog) : List Message := c.entries.map (·.message)

/-- The entry of an id. -/
def find? (c : Catalog) (v : Value) : Option Entry :=
  c.entries.find? fun e ↦ e.message.id.toValue.same v

/-- Whether a value can be looked up: a list or an object cannot. -/
def canLookUp : Value → Bool
  | .list _ | .object _ => false
  | _ => true

def get (c : Catalog) (v : Value) : Except Fault (Option Message) :=
  if canLookUp v then .ok ((c.find? v).map (·.message)) else .error .unhashable

/-- A description that says nothing. -/
def isMissing : Value → Bool
  | .null | .undefined => true
  | .bool b => !b
  | .int n => n == 0
  | .float x => x == 0
  | .nan => false
  | .complex re im => re == 0 && im == 0
  | .text t => t.isEmpty
  | .list items => items.isEmpty
  | .object members => members.isEmpty

def textValue : Option Text → Value
  | some t => .text t
  | none => .null

/-- Whether a descriptor says the same as a message that is stored. -/
def agrees (m : Message) (d : Descriptor) : Bool :=
  m.description.toValue.equal d.description && (textValue m.defaultMessage).equal d.defaultMessage

/-- The default message of a descriptor as a catalog holds it. -/
def storedText : Value → Except Failure (Option Text)
  | .text t => .ok (some t)
  | .null => .ok none
  | _ => .error (.fault .invalidDescriptor)

def storedJson (v : Value) : Except Failure Json :=
  match v.toJson? with
  | some j => .ok j
  | none => .error (.fault .invalidDescriptor)

/-- The message that a descriptor becomes when it is stored. -/
def store (s : Source) (o : Options) (id : MessageId) (d : Descriptor) (p : Place) :
    Except Failure Message := do
  let description ← storedJson d.description
  let defaultMessage ← storedText d.defaultMessage
  if o.keepLocation then
    return ⟨id, description, defaultMessage, some s.path, some (s.startOf p).toPoint,
      some (s.stopOf p).toPoint⟩
  else return ⟨id, description, defaultMessage, none, none, none⟩

/-- The complaint about an id that is declared again with other content. -/
def conflict (s : Source) (id : MessageId) (first : Position) (p : Place) : Failure :=
  match id.shown with
  | .ok shown => s.complain p (.duplicateId shown s.path first)
  | .error f => .fault f

/-- Work on a catalog. What was done before a failure stays done. -/
abbrev Work (α : Type) := EStateM Failure Catalog α

/-- Records what is declared at a node. A declaration that says the same as one before it changes
nothing. -/
def declare (s : Source) (o : Options) (d : Descriptor) (p : Place) : Work Message := do
  match MessageId.ofValue? d.id with
  | none => throw (s.complain p .invalidId)
  | some id =>
    let c ← MonadState.get
    let existing := c.find? id.toValue
    if let some e := existing then
      if !agrees e.message d then throw (conflict s id e.origin p)
    if o.enforceDescriptions && isMissing d.description then
      throw (s.complain p .missingDescription)
    match existing with
    | some e => return e.message
    | none => do
      let m ← liftExcept (store s o id d p)
      modify fun c ↦ ⟨c.entries ++ [⟨m, s.startOf p⟩]⟩
      return m

/-- How the recording of a declaration ends, and the catalog that it leaves. -/
def put (c : Catalog) (s : Source) (o : Options) (d : Descriptor) (p : Place) :
    EStateM.Result Failure Catalog Message := (declare s o d p).run c

end Catalog

end MessageExtraction
