import MessageExtraction.Json.Basic
import MessageExtraction.Path
import MessageExtraction.Text.Quoted
import MessageExtraction.Text.Utf8
import MessageExtraction.Tree.Basic

namespace MessageExtraction

/-- A file: its bytes, and what they say when they are read as a source or as a document. -/
structure File where
  bytes : Bytes
  /-- The syntax tree of a source, and whether it was recovered from errors. -/
  tree : Option (Node × Bool) := none
  /-- The data of a document. -/
  data : Option Json := none

/-- What a name in a directory stands for. -/
inductive Item where
  | file (f : File)
  | link (target : Path)
  | directory (items : List (Text × Item))

namespace Item

instance : Inhabited Item := ⟨.directory []⟩

def isDirectory : Item → Bool
  | .directory _ => true
  | _ => false

/-- What stands at the end of a way of names, no link being followed. -/
def at? : List Text → Item → Option Item
  | [], i => some i
  | name :: rest, .directory items => (items.lookup name).bind (at? rest)
  | _ :: _, _ => none

/-- Gives a name in a directory a new meaning; a name that is already there keeps its place. -/
def assign (name : Text) (i : Item) : List (Text × Item) → List (Text × Item)
  | [] => [(name, i)]
  | (n, old) :: rest => if n = name then (n, i) :: rest else (n, old) :: assign name i rest

/-- Puts something at the end of a way of names, with the directories that are missing on it. -/
def set (new : Item) : List Text → Item → Item
  | [], _ => new
  | name :: rest, .directory items =>
    let inner := match items.lookup name with
      | some i => i
      | none => .directory []
    .directory (assign name (set new rest inner) items)
  | _ :: _, i => i

end Item

/-- Why a path could not be used. -/
inductive Obstacle where
  | missing
  | present
  | notDirectory
  | isDirectory
  | tooManyLinks
  deriving DecidableEq, Repr

namespace Obstacle

/-- The number that the operating system gives it. -/
def number : Obstacle → Nat
  | .missing => 2
  | .present => 17
  | .notDirectory => 20
  | .isDirectory => 21
  | .tooManyLinks => 40

def words : Obstacle → Text
  | .missing => "No such file or directory"
  | .present => "File exists"
  | .notDirectory => "Not a directory"
  | .isDirectory => "Is a directory"
  | .tooManyLinks => "Too many levels of symbolic links"

end Obstacle

/-- A failure to use a path, with the path that was asked for. -/
structure FileError where
  obstacle : Obstacle
  path : Path
  deriving DecidableEq, Repr

def FileError.message (e : FileError) : Text :=
  ("[Errno " : Text) ++ Text.ofNat e.obstacle.number ++ ("] " : Text) ++ e.obstacle.words
    ++ (": " : Text) ++ Text.quoted e.path.toText

/-- All files, by the directory that every absolute path begins at. -/
structure FileSystem where
  top : Item

namespace FileSystem

instance : Inhabited FileSystem := ⟨⟨default⟩⟩

def at? (fs : FileSystem) (place : List Text) : Option Item := fs.top.at? place

def set (fs : FileSystem) (place : List Text) (new : Item) : FileSystem :=
  ⟨Item.set new place fs.top⟩

/-- How much of a path has to be there already. -/
inductive Demand where
  | whole
  | allButLast
  | nothing
  deriving DecidableEq, Repr

/-- Where a way of names has led: to its end, or to a link with the names that are left. -/
inductive Stop where
  | arrived (place : List Text)
  | link (place : List Text) (target : Path) (rest : List Text)

def hasDirectory (fs : FileSystem) (place : List Text) : Bool :=
  (fs.at? place).any Item.isDirectory

/-- Takes names one after another from a directory up to the first link. -/
def advance (fs : FileSystem) (demand : Demand) (place : List Text) :
    List Text → Except Obstacle Stop
  | [] => .ok (.arrived place)
  | name :: rest =>
    if name = Path.dotDot then
      if demand != .nothing && !fs.hasDirectory place then .error .notDirectory
      else fs.advance demand place.dropLast rest
    else
      let next := place ++ [name]
      match fs.at? next with
      | some (.link target) => .ok (.link place target rest)
      | some _ => fs.advance demand next rest
      | none =>
        if demand = .nothing then fs.advance demand next rest
        else if !fs.hasDirectory place then .error .notDirectory
        else if demand = .allButLast ∧ rest = [] then .ok (.arrived next)
        else .error .missing

/-- Follows names and links from a directory, through so many links at most. -/
def follow (fs : FileSystem) (demand : Demand) :
    Nat → List Text → List Text → Except Obstacle (List Text)
  | links, place, names =>
    match fs.advance demand place names, links with
    | .error e, _ => .error e
    | .ok (.arrived place), _ => .ok place
    | .ok (.link _ _ _), 0 => .error .tooManyLinks
    | .ok (.link place target rest), links + 1 =>
      fs.follow demand links (if target.isAbsolute then [] else place) (target.segments ++ rest)

/-- How many links a path may lead through. -/
def maxLinks : Nat := 40

/-- The place that an absolute path leads to. -/
def resolve (fs : FileSystem) (demand : Demand) (p : Path) : Except Obstacle (List Text) :=
  fs.follow demand maxLinks [] p.segments

/-- The path without links and steps back, whether it leads to something or not. -/
def canonical (fs : FileSystem) (p : Path) : Path :=
  match fs.resolve .nothing p with
  | .ok place => ⟨[CodePoint.slash], place⟩
  | .error _ => p

/-- What an absolute path leads to. -/
def find? (fs : FileSystem) (p : Path) : Option Item :=
  match fs.resolve .whole p with
  | .ok place => fs.at? place
  | .error _ => none

def contains (fs : FileSystem) (p : Path) : Bool := (fs.find? p).isSome

def isDirectory (fs : FileSystem) (p : Path) : Bool := (fs.find? p).any Item.isDirectory

/-- The file that an absolute path leads to. -/
def read (fs : FileSystem) (p : Path) : Except FileError File :=
  match fs.resolve .whole p with
  | .error obstacle => .error ⟨obstacle, p⟩
  | .ok place =>
    match fs.at? place with
    | some (.file f) => .ok f
    | some _ => .error ⟨.isDirectory, p⟩
    | none => .error ⟨.missing, p⟩

end FileSystem

end MessageExtraction
