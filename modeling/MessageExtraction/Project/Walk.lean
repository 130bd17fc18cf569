import MessageExtraction.FileSystem.Basic
import MessageExtraction.Language

namespace MessageExtraction

/-- A file that a walk has found. -/
structure FoundFile where
  path : Path
  language : Option Language
  size : Nat
  deriving DecidableEq, Repr

/-- What a walk passes over. -/
structure Sieve where
  /-- Whether a path is ignored, and whether it is to be taken for a directory. -/
  ignores : Path → Bool → Bool
  maxKilobytes : Int
  /-- The languages to keep by name, none standing for files that are in no language. -/
  languages : Option (List (Option Text))

namespace Sieve

def fits (s : Sieve) (size : Nat) : Bool := (size : Int) ≤ s.maxKilobytes * 1024

def wants (s : Sieve) (language : Option Language) : Bool :=
  s.languages.all fun names ↦ names.contains (language.map Language.name)

end Sieve

namespace FileSystem

/-- The size of the file that something in a directory is or leads to. -/
def sizeAt? (fs : FileSystem) (p : Path) : Item → Option Nat
  | .file f => some f.bytes.length
  | .link _ =>
    match fs.find? p with
    | some (.file f) => some f.bytes.length
    | _ => none
  | .directory _ => none

/-- The file under a name of a directory, if nothing speaks against it. -/
def foundFile? (fs : FileSystem) (s : Sieve) (directory : Path) (name : Text) (i : Item) :
    Option FoundFile := do
  let p := directory.child name
  let size ← fs.sizeAt? p i
  let language := Language.ofPath? p
  if !s.ignores p false && s.fits size && s.wants language then some ⟨p, language, size⟩ else none

/-- By name, in the order of code points. -/
def byName (named : List (Text × α)) : List (Text × α) := named.mergeSort fun a b ↦ Text.le a.1 b.1

def inOrder (named : List (Text × α)) : List α := (byName named).map (·.2)

/-- The files of a directory that are kept, by name. -/
def ownFiles (fs : FileSystem) (s : Sieve) (directory : Path) (items : List (Text × Item)) :
    List FoundFile :=
  (byName items).filterMap fun (name, i) ↦ fs.foundFile? s directory name i

mutual

/-- The files below a directory that are kept: its own before those of the directories in it. Links
to directories are not entered. -/
def filesBelow (fs : FileSystem) (s : Sieve) (directory : Path) : Item → List FoundFile
  | .directory items =>
    fs.ownFiles s directory items ++ (inOrder (fs.filesByName s directory items)).flatten
  | _ => []

/-- The files below each of the directories in one that are kept. -/
def filesByName (fs : FileSystem) (s : Sieve) (directory : Path) :
    List (Text × Item) → List (Text × List FoundFile)
  | [] => []
  | (name, i) :: rest =>
    if i.isDirectory && !s.ignores (directory.child name) true then
      (name, fs.filesBelow s (directory.child name) i) :: fs.filesByName s directory rest
    else fs.filesByName s directory rest

end

/-- The files below a path that are kept; there are none below what is no directory. -/
def walk (fs : FileSystem) (s : Sieve) (root : Path) : List FoundFile :=
  let root := fs.canonical root
  match fs.find? root with
  | some i => fs.filesBelow s root i
  | none => []

end FileSystem

end MessageExtraction
