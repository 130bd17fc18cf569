import MessageExtraction.Json.Basic
import MessageExtraction.Value.Equality

namespace MessageExtraction

/-- What a message is known by. -/
inductive MessageId where
  | text (t : Text)
  | int (n : Int)
  | float (x : Float)
  /-- The global constant, which is the same as itself; a computed one is not. -/
  | nan

namespace MessageId

def toJson : MessageId → Json
  | .text t => .text t
  | .int n => .int n
  | .float x => .float x
  | .nan => .float (0 / 0)

def toValue : MessageId → Value
  | .text t => .text t
  | .int n => .int n
  | .float x => .float x
  | .nan => .nan

/-- The id that a value is: a text that is not empty, or a number. -/
def ofValue? : Value → Option MessageId
  | .text t => if t.isEmpty then none else some (.text t)
  | .int n => some (.int n)
  | .float x => some (.float x)
  | .nan => some .nan
  | _ => none

/-- Ids are the same when they are the same text or the same number, of either kind. -/
def same (i j : MessageId) : Bool := i.toValue.same j.toValue

/-- The id as it is named in a message to the user. -/
def shown : MessageId → Except Fault Text
  | .text t => .ok t
  | .int n => Value.integerText n
  | .float x => .ok (Number.written Number.standard x)
  | .nan => .ok (Number.written Number.standard (0 / 0))

end MessageId

/-- A point of a file as a message records it. -/
structure Point where
  line : Int
  column : Int
  deriving DecidableEq, Repr

/-- A message of a catalog. -/
structure Message where
  id : MessageId
  description : Json
  defaultMessage : Option Text
  file : Option Text
  start : Option Point
  stop : Option Point

end MessageExtraction
