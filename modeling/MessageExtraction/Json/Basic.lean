import MessageExtraction.Value.Basic

namespace MessageExtraction

/-- A value that a catalog can hold. Whole numbers and doubles are told apart, and an object keeps
its members in order. -/
inductive Json where
  | null
  | bool (b : Bool)
  | int (n : Int)
  | float (x : Float)
  | text (t : Text)
  | list (items : List Json)
  | object (members : List (Text × Json))

namespace Json

instance : Inhabited Json := ⟨.null⟩

/-- Sets a member; a name that is already there keeps its place. -/
def insertMember (name : Text) (j : Json) : List (Text × Json) → List (Text × Json)
  | [] => [(name, j)]
  | (n, i) :: rest => if n = name then (n, j) :: rest else (n, i) :: insertMember name j rest

def member? (name : Text) : Json → Option Json
  | .object members => members.lookup name
  | _ => none

mutual

def toValue : Json → Value
  | .null => .null
  | .bool b => .bool b
  | .int n => .int n
  | .float x => .float x
  | .text t => .text t
  | .list items => .list (toValues items)
  | .object members => .object (toMembers members)

def toValues : List Json → List Value
  | [] => []
  | j :: rest => toValue j :: toValues rest

def toMembers : List (Text × Json) → List (Text × Value)
  | [] => []
  | (name, j) :: rest => (name, toValue j) :: toMembers rest

end

end Json

namespace Value

mutual

/-- The value as JSON; none if it holds something that JSON has no word for. -/
def toJson? : Value → Option Json
  | .null => some .null
  | .bool b => some (.bool b)
  | .int n => some (.int n)
  | .float x => some (.float x)
  | .nan => some (.float (0 / 0))
  | .text t => some (.text t)
  | .list items => (toJsonItems? items).map .list
  | .object members => (toJsonMembers? members).map .object
  | .undefined | .complex _ _ => none

def toJsonItems? : List Value → Option (List Json)
  | [] => some []
  | v :: rest => do return (← toJson? v) :: (← toJsonItems? rest)

def toJsonMembers? : List (Text × Value) → Option (List (Text × Json))
  | [] => some []
  | (name, v) :: rest => do return (name, ← toJson? v) :: (← toJsonMembers? rest)

end

def isUndefined : Value → Bool
  | .undefined => true
  | _ => false

mutual

/-- What is kept of a value when it becomes data: a member that is undefined is dropped, and an item
that is undefined or a number that is not finite becomes null. -/
def kept : Value → Value
  | .undefined | .nan => .null
  | .float x => if Binary.isFinite x then .float x else .null
  | .list items => .list (keptItems items)
  | .object members => .object (keptMembers members)
  | v => v

def keptItems : List Value → List Value
  | [] => []
  | v :: rest => kept v :: keptItems rest

def keptMembers : List (Text × Value) → List (Text × Value)
  | [] => []
  | (name, v) :: rest =>
    if isUndefined v then keptMembers rest else (name, kept v) :: keptMembers rest

end

end Value

end MessageExtraction
