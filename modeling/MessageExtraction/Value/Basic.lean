import MessageExtraction.Number.Literal
import MessageExtraction.Number.Written

namespace MessageExtraction

/-- What a constant expression stands for. An object keeps its members in the order in which their
names first appeared. -/
inductive Value where
  | null
  | undefined
  | bool (b : Bool)
  | int (n : Int)
  | float (x : Float)
  /-- The global constant `NaN`. There is one of it, so it is equal to itself as a part of a list or an
  object; a `NaN` that was computed is equal to nothing. -/
  | nan
  /-- A negative number to a broken power. -/
  | complex (re im : Float)
  | text (t : Text)
  | list (items : List Value)
  | object (members : List (Text × Value))

namespace Value

instance : Inhabited Value := ⟨.null⟩

def ofLiteral : Number.Literal → Value
  | .int n => .int n
  | .float x => .float x

/-- Sets a member; a name that is already there keeps its place. -/
def insertMember (name : Text) (v : Value) : List (Text × Value) → List (Text × Value)
  | [] => [(name, v)]
  | (n, w) :: rest => if n = name then (n, v) :: rest else (n, w) :: insertMember name v rest

def isNumber : Value → Bool
  | .int _ | .float _ | .nan => true
  | _ => false

def isText : Value → Bool
  | .text _ => true
  | _ => false

def isTruthy : Value → Bool
  | .null | .undefined | .nan => false
  | .bool b => b
  | .int n => n != 0
  | .float x => !(Binary.isNaN x || x == 0)
  | .complex re im => !(re == 0 && im == 0)
  | .text t => !t.isEmpty
  | .list _ | .object _ => true

/-- A double that is whole becomes the integer that it is. -/
def normalize : Value → Value
  | .float x =>
    match Binary.toInt? x with
    | some n => .int n
    | none => .float x
  | v => v

/-- The decimal spelling of an integer, as long as it is not too long. -/
def integerText (n : Int) : Except Fault Text :=
  let t := Text.ofNat n.natAbs
  if Text.digitLimit < t.length then .error (.tooManyDigits none)
  else .ok (if n < 0 then CodePoint.hyphen :: t else t)

/-- How a program converts a double to a text: whole numbers without a fraction. -/
def floatText (x : Float) : Text :=
  match Binary.ofFloat x with
  | .nan => "NaN"
  | .infinite negative => if negative then "-Infinity" else "Infinity"
  | .finite _ _ _ =>
    match Binary.toInt? x with
    | some n => Text.ofInt n
    | none => Number.written Number.standard x

mutual

/-- How a program converts a value to a text. -/
def toText : Value → Except Fault Text
  | .text t => .ok t
  | .bool b => .ok (if b then "true" else "false")
  | .null => .ok "null"
  | .undefined => .ok "undefined"
  | .nan => .ok "NaN"
  | .float x => .ok (floatText x)
  | .int n => integerText n
  | .list items => do return Text.joinWith [CodePoint.comma] (← itemTexts items)
  | .object _ | .complex _ _ => .ok "[object Object]"

/-- The texts of a list's items, missing ones being empty. -/
def itemTexts : List Value → Except Fault (List Text)
  | [] => .ok []
  | .null :: rest | .undefined :: rest => do return [] :: (← itemTexts rest)
  | v :: rest => do
    let t ← toText v
    return t :: (← itemTexts rest)

end

end Value

end MessageExtraction
