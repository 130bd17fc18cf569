import MessageExtraction.FileSystem.Basic

/-!
Files written down as JSON: an object of paths, each with the text or the bytes of a file and the
syntax tree it has, with the data of a document, or with the target of a link. A path that ends in a
slash is a directory.
-/

namespace MessageExtraction

namespace Json

def text? : Json → Option Text
  | .text t => some t
  | _ => none

def items : Json → List Json
  | .list items => items
  | _ => []

def members : Json → List (Text × Json)
  | .object members => members
  | _ => []

def natural : Json → Nat
  | .int n => n.toNat
  | _ => 0

def isTrue : Json → Bool
  | .bool b => b
  | _ => false

end Json

def Text.toString (t : Text) : String := String.ofList (t.map Char.ofNat)

namespace Node

/-- A node of a listing: its kind, whether it is named, its span, the number of its children and
the fields among them. -/
def Entry.ofJson? : Json → Option Entry
  | .list [.text kind, .int isNamed, .int start, .int stop, .int count, .object fields] =>
    some ⟨Text.toString kind, isNamed == 1, start.toNat, stop.toNat, count.toNat,
      fields.map fun (name, i) ↦ (Text.toString name, i.natural)⟩
  | _ => none

/-- A tree as the listing of its nodes, and whether it was recovered from errors. -/
def ofJson? (j : Json) : Option (Node × Bool) := do
  let entries ← ((← j.member? "nodes").items).mapM Entry.ofJson?
  return (← ofEntries? entries, ((← j.member? "has_error").isTrue))

end Node

namespace Snapshot

def ofHex : Text → Bytes
  | high :: low :: rest =>
    UInt8.ofNat ((CodePoint.hexValue? high).getD 0 * 16 + (CodePoint.hexValue? low).getD 0)
      :: ofHex rest
  | _ => []

/-- The bytes of a file, given as text or in hexadecimal digits. -/
def bytes (j : Json) : Bytes :=
  match (j.member? "hex").bind Json.text? with
  | some digits => ofHex digits
  | none => (((j.member? "code").bind Json.text?).bind Utf8.encode?).getD []

def item (j : Json) : Item :=
  match (j.member? "symlink").bind Json.text? with
  | some target => .link (.ofText target)
  | none => .file ⟨bytes j, (j.member? "tree").bind Node.ofJson?, j.member? "yaml"⟩

/-- Adds one path below a directory. -/
def add (base : Path) (fs : FileSystem) (path : Text) (j : Json) : FileSystem :=
  let place := (base.join (.ofText path)).segments
  if path.endsWith "/" then fs.set place (.directory []) else fs.set place (item j)

/-- The files that are written down, below a directory. -/
def files (base : Path) (j : Json) : FileSystem :=
  j.members.foldl (fun fs (path, j) ↦ add base fs path j)
    ((default : FileSystem).set base.segments (.directory []))

end Snapshot

namespace Item

mutual

/-- All files below, with the names that lead to them. -/
def files : Item → List (List Text × File)
  | .file f => [([], f)]
  | .link _ => []
  | .directory items => filesOf items

def filesOf : List (Text × Item) → List (List Text × File)
  | [] => []
  | (name, i) :: rest => i.files.map (fun (names, f) ↦ (name :: names, f)) ++ filesOf rest

end

end Item

namespace FileSystem

def files (fs : FileSystem) : List (List Text × File) := fs.top.files

/-- The files that are new, or have other bytes than they had before. -/
def changes (before after : FileSystem) : List (List Text × File) :=
  after.files.filter fun (place, f) ↦
    match before.at? place with
    | some (.file old) => old.bytes != f.bytes
    | _ => true

end FileSystem

end MessageExtraction
