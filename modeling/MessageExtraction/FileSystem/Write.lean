import MessageExtraction.Fault
import MessageExtraction.FileSystem.Basic

namespace MessageExtraction

namespace FileSystem

/-- Makes a directory in one that is there. -/
def makeDirectory (fs : FileSystem) (p : Path) : Except Obstacle FileSystem :=
  match p.segments.getLast? with
  | none => .error .present
  | some name =>
    match fs.resolve .whole p.parent with
    | .error obstacle => .error obstacle
    | .ok place =>
      if !fs.hasDirectory place then .error .notDirectory
      else if name = Path.dotDot ∨ (fs.at? (place ++ [name])).isSome then .error .present
      else .ok (fs.set (place ++ [name]) (.directory []))

/-- Makes a directory in one that is there, unless there is one already. -/
def ensureDirectory (fs : FileSystem) (p : Path) : FileSystem × Except FileError Unit :=
  match fs.makeDirectory p with
  | .ok made => (made, .ok ())
  | .error obstacle =>
    if obstacle != .missing && fs.isDirectory p then (fs, .ok ()) else (fs, .error ⟨obstacle, p⟩)

/-- Makes a directory with those around it that are missing. The names are given last first. -/
def ensureAll (fs : FileSystem) (root : Text) : List Text → FileSystem × Except FileError Unit
  | [] => (fs, .ok ())
  | name :: above =>
    let p : Path := ⟨root, (name :: above).reverse⟩
    match fs.makeDirectory p with
    | .error .missing =>
      match fs.ensureAll root above with
      | (fs, .ok ()) => fs.ensureDirectory p
      | failed => failed
    | _ => fs.ensureDirectory p

def makeDirectories (fs : FileSystem) (p : Path) : FileSystem × Except FileError Unit :=
  fs.ensureAll p.root p.segments.reverse

/-- The place of a file that is opened to be written. -/
def writable (fs : FileSystem) (p : Path) : Except FileError (List Text) :=
  match fs.resolve .allButLast p with
  | .error obstacle => .error ⟨obstacle, p⟩
  | .ok place => if fs.hasDirectory place then .error ⟨.isDirectory, p⟩ else .ok place

end FileSystem

/-- Why a text was not written. -/
inductive WriteError where
  | file (e : FileError)
  | fault (f : Fault)
  deriving DecidableEq, Repr

namespace FileSystem

/-- Writes a text to a file, which is emptied before the text is encoded: a text that cannot be
encoded leaves nothing in it. -/
def writeText (fs : FileSystem) (p : Path) (t : Text) (data : Option Json) :
    FileSystem × Except WriteError Unit :=
  match fs.writable p with
  | .error e => (fs, .error (.file e))
  | .ok place =>
    match Utf8.encode? t with
    | some bytes => (fs.set place (.file ⟨bytes, none, data⟩), .ok ())
    | none => (fs.set place (.file ⟨[], none, none⟩), .error (.fault .unencodable))

end FileSystem

end MessageExtraction
