import MessageExtraction.Json.Basic
import MessageExtraction.Path
import MessageExtraction.Text.Blank

/-!
Data checked against the shape that is expected of it. What can be read as the type asked for is
read so: `"yes"` is true and `"12"` a number. All that is wrong is reported, not the first thing only.
-/

namespace MessageExtraction.Validation

inductive IssueKind where
  | stringType
  | intType
  | intParsing
  | intParsingSize
  | intFromFloat
  | finiteNumber
  | floatType
  | boolType
  | boolParsing
  | pathType
  | listType
  | modelType
  | missing
  | extraForbidden
  deriving DecidableEq, Repr

def IssueKind.name : IssueKind → Text
  | .stringType => "string_type"
  | .intType => "int_type"
  | .intParsing => "int_parsing"
  | .intParsingSize => "int_parsing_size"
  | .intFromFloat => "int_from_float"
  | .finiteNumber => "finite_number"
  | .floatType => "float_type"
  | .boolType => "bool_type"
  | .boolParsing => "bool_parsing"
  | .pathType => "path_type"
  | .listType => "list_type"
  | .modelType => "model_type"
  | .missing => "missing"
  | .extraForbidden => "extra_forbidden"

/-- What is wrong and where, the location given from the outside in. -/
structure Issue where
  location : List Text
  kind : IssueKind
  deriving DecidableEq, Repr

def Issue.place (i : Issue) : Text := Text.joinWith [CodePoint.period] i.location

abbrev Checked (α : Type) := Except (List Issue) α

def issue (kind : IssueKind) : Checked α := .error [⟨[], kind⟩]

/-- Places what is wrong with a part below its name. -/
def below (name : Text) (x : Checked α) : Checked α :=
  x.mapError (·.map fun i ↦ { i with location := name :: i.location })

/-- Both, with what is wrong in either. -/
def both (x : Checked α) (y : Checked β) : Checked (α × β) :=
  match x, y with
  | .ok a, .ok b => .ok (a, b)
  | .error xs, .error ys => .error (xs ++ ys)
  | .error xs, .ok _ => .error xs
  | .ok _, .error ys => .error ys

def each (f : Nat → Json → Checked α) (start : Nat) : List Json → Checked (List α)
  | [] => .ok []
  | j :: rest =>
    match both (f start j) (each f (start + 1) rest) with
    | .ok (a, as) => .ok (a :: as)
    | .error issues => .error issues

def text : Json → Checked Text
  | .text t => .ok t
  | _ => issue .stringType

def path : Json → Checked Path
  | .text t => .ok (Path.ofText t)
  | _ => issue .pathType

def optional (f : Json → Checked α) : Json → Checked (Option α)
  | .null => .ok none
  | j => (f j).map some

/-- The whole part of a number's text, a fraction of zeros taken away. -/
def wholePart (t : Text) : Option Text :=
  let whole := t.takeWhile (· != CodePoint.period)
  match t.drop whole.length with
  | [] => some whole
  | _ :: zeros => if !zeros.isEmpty && zeros.all (· == 0x30) then some whole else none

/-- Digits between which single underscores may stand. -/
def separatedDigits? (t : Text) : Option Nat :=
  if (Text.splitAt CodePoint.underscore t).any List.isEmpty then none
  else Number.digits? 10 (t.filter (· != CodePoint.underscore))

def textAsInt? (t : Text) : Option Int := do
  let (negative, body) := Number.takeSign (Text.trim t)
  let n ← separatedDigits? (← wholePart body)
  return Number.withSign negative n

/-- A double that is a whole number of machine size. -/
def floatAsInt (x : Float) : Checked Int :=
  if !Binary.isFinite x then issue .finiteNumber
  else match Binary.toInt? x with
    | none => issue .intFromFloat
    | some n => if n.natAbs < 0x8000000000000000 then .ok n else issue .intParsingSize

def int : Json → Checked Int
  | .int n => .ok n
  | .bool b => .ok (if b then 1 else 0)
  | .float x => floatAsInt x
  | .text t =>
    match textAsInt? t with
    | some n => .ok n
    | none => issue .intParsing
  | _ => issue .intType

def trueWords : List String := ["1", "on", "t", "true", "y", "yes"]

def falseWords : List String := ["0", "off", "f", "false", "n", "no"]

def isAmong (words : List String) (t : Text) : Bool :=
  words.any fun w ↦ Text.ofString w == Text.lower t

def intAsBool (n : Int) : Checked Bool :=
  if n = 0 then .ok false else if n = 1 then .ok true else issue .boolParsing

def bool : Json → Checked Bool
  | .bool b => .ok b
  | .int n => if n.natAbs < 0x8000000000000000 then intAsBool n else issue .boolType
  | .float x =>
    match floatAsInt x with
    | .ok n => intAsBool n
    | .error _ => issue .boolType
  | .text t =>
    if isAmong trueWords t then .ok true
    else if isAmong falseWords t then .ok false
    else issue .boolParsing
  | _ => issue .boolType

def list (f : Json → Checked α) : Json → Checked (List α)
  | .list items => each (fun i j ↦ below (Text.ofNat i) (f j)) 0 items
  | _ => issue .listType

/-- The members of an object, looked up under a name and, first, under another that goes before it. -/
def member? (members : List (Text × Json)) (outerName name : String) : Option Json :=
  (members.lookup (Text.ofString outerName)).or (members.lookup (Text.ofString name))

/-- A member with a value to fall back on. -/
def field (members : List (Text × Json)) (outerName name : String) (fallback : α)
    (f : Json → Checked α) : Checked α :=
  match member? members outerName name with
  | some j => below (Text.ofString outerName) (f j)
  | none => .ok fallback

/-- A member that has to be there. -/
def required (members : List (Text × Json)) (name : String) (f : Json → Checked α) : Checked α :=
  below (Text.ofString name) <| match members.lookup (Text.ofString name) with
    | some j => f j
    | none => issue .missing

/-- The members of what has to be an object. -/
def model (f : List (Text × Json) → Checked α) : Json → Checked α
  | .object members => f members
  | _ => issue .modelType

end MessageExtraction.Validation
