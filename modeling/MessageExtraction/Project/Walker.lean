import MessageExtraction.Project.Walk

namespace MessageExtraction

namespace FileSystem

/-- The size that is told of a small directory. -/
def directorySize : Nat := 4096

/-- The size that is told of what a path leads to. -/
def sizeOf? (fs : FileSystem) (p : Path) : Option Nat :=
  match fs.find? p with
  | some (.file f) => some f.bytes.length
  | some (.directory _) => some directorySize
  | _ => none

/-- Whether what a directory holds under a path is taken for a file, when its turn has come. -/
def takes (fs : FileSystem) (s : Sieve) (p : Path) : Bool :=
  (fs.at? p.segments).any (!·.isDirectory) && !s.ignores p false && (fs.sizeOf? p).any s.fits &&
    s.wants (Language.ofPath? p)

end FileSystem

/-- What a walk does with the files that it takes. The files are part of a state, and a visit of one of
them leads to another state; it may also end the walk. -/
structure Walker (σ ε : Type) where
  files : σ → FileSystem
  /-- What is passed over among files as they are. -/
  sieve : FileSystem → Sieve
  visit : σ → Path → σ × Option ε

/-- A stretch of a walk: which files it takes from a state on, the state it leads to, and what has ended
the walk in it, if anything has. -/
abbrev Stretch (σ ε : Type) : Type := σ → List Path × σ × Option ε

namespace Stretch

variable {σ ε : Type}

def nothing : Stretch σ ε := fun x ↦ ([], x, none)

/-- One stretch and then another, unless the first one ends the walk. -/
def andThen (first second : Stretch σ ε) : Stretch σ ε := fun x ↦
  match first x with
  | (taken, y, none) => let (more, ended) := second y; (taken ++ more, ended)
  | stopped => stopped

def inTurn : List (Stretch σ ε) → Stretch σ ε
  | [] => nothing
  | stretch :: rest => stretch.andThen (inTurn rest)

end Stretch

namespace Walker

open Stretch

variable {σ ε : Type} (w : Walker σ ε)

/-- Visits a file, if it is there to be taken in its turn. -/
def take (p : Path) : Stretch σ ε := fun x ↦
  if (w.files x).takes (w.sieve (w.files x)) p then ([p], w.visit x p) else nothing x

/-- Below a directory that the walk itself has brought about. -/
def belowNew (directory : Path) : Stretch σ ε := fun x ↦
  match (w.files x).at? directory.segments with
  | some i =>
    inTurn (((w.files x).filesBelow (w.sieve (w.files x)) directory i).map fun f ↦ w.take f.path) x
  | none => nothing x

/-- What there is to do in a directory, with what it holds now and with what is known to be done below
the directories that were in it at the start. Its own files come first. What leads to a directory by a
link is none of them, and is not entered. -/
def stretches (fs : FileSystem) (directory : Path) (items : List (Text × Item))
    (known : List (Text × Stretch σ ε)) : List (Stretch σ ε) :=
  let own := (FileSystem.byName items).filter fun (name, _) ↦ !fs.isDirectory (directory.child name)
  let entered := FileSystem.byName (items.filter fun (name, i) ↦
    i.isDirectory && !(w.sieve fs).ignores (directory.child name) true)
  own.map (fun (name, _) ↦ w.take (directory.child name)) ++
    entered.map fun (name, _) ↦ (known.lookup name).getD (w.belowNew (directory.child name))

/-- A directory is listed when its turn has come. -/
def enter (directory : Path) (known : List (Text × Stretch σ ε)) : Stretch σ ε := fun x ↦
  match (w.files x).at? directory.segments with
  | some (.directory items) => inTurn (w.stretches (w.files x) directory items known) x
  | _ => nothing x

mutual

/-- Below a directory that was there at the start. -/
def below (w : Walker σ ε) (directory : Path) : Item → Stretch σ ε
  | .directory items => w.enter directory (w.belowEach directory items)
  | _ => nothing

/-- Below each of the directories that were in one at the start. -/
def belowEach (w : Walker σ ε) (directory : Path) : List (Text × Item) → List (Text × Stretch σ ε)
  | [] => []
  | (name, i) :: rest => (name, w.below (directory.child name) i) :: w.belowEach directory rest

end

/-- Visits the files below a path. Each directory is listed and each file is looked up in its turn, among
the files as the visits before have left them. -/
def walk (root : Path) : Stretch σ ε := fun x ↦
  let root := (w.files x).canonical root
  match (w.files x).find? root with
  | some i => w.below root i x
  | none => nothing x

end Walker

end MessageExtraction
