import MessageExtraction.Fault
import MessageExtraction.FileSystem.Basic
import MessageExtraction.Ignore.Rule
import MessageExtraction.Text.Lines
import MessageExtraction.Validation

namespace MessageExtraction.Ignore

/-- Where lines are taken from besides the ones that always hold. -/
structure Settings where
  useGitignore : Bool
  useOwnFile : Bool
  extraPatterns : List Text
  deriving DecidableEq, Repr

namespace Settings

def standard : Settings := ⟨true, true, []⟩

open Validation in
def ofMembers (members : List (Text × Json)) : Checked Settings := do
  let (useGitignore, useOwnFile, extraPatterns) ←
    both (field members "use_gitignore" "use_gitignore" standard.useGitignore bool)
      (both (field members "use_intlextractignore" "use_intlextractignore" standard.useOwnFile bool)
        (field members "extra_patterns" "extra_patterns" standard.extraPatterns (list text)))
  return ⟨useGitignore, useOwnFile, extraPatterns⟩

def ofJson : Json → Validation.Checked Settings := Validation.model ofMembers

def toJson (s : Settings) : Json :=
  .object [("use_gitignore", .bool s.useGitignore), ("use_intlextractignore", .bool s.useOwnFile),
    ("extra_patterns", .list (s.extraPatterns.map .text))]

end Settings

/-- The lines that come before all others. -/
def standardLines : List String :=
  [".git/", ".hg/", "node_modules/", "bower_components/", "jspm_packages/", "dist/", "build/",
    "coverage/", ".cache/", ".next/", ".venv/", "venv/", "*.min.js", "*.map", "*.d.ts",
    ".DS_Store"]

def gitignoreName : Text := ".gitignore"

def ownName : Text := ".intlextractignore"

/-- Why the rules of a project cannot be read. -/
inductive Error where
  | file (e : FileError)
  | fault (f : Fault)
  | pattern (e : PatternError)
  deriving DecidableEq, Repr

/-- The lines of a text that say something, without the blanks around them. -/
def meaningful (t : Text) : List Text :=
  ((Text.lines t).map Text.trim).filter fun line ↦
    !line.isEmpty && line.head? != some CodePoint.hash

/-- The lines of a file, if it is there. -/
def linesOf (fs : FileSystem) (p : Path) : Except Error (List Text) :=
  if fs.contains p then do
    let f ← (fs.read p).mapError .file
    let t ← (Utf8.decode f.bytes).mapError fun e ↦ .fault (.undecodable e)
    return meaningful t
  else .ok []

def linesIf (isWanted : Bool) (fs : FileSystem) (p : Path) : Except Error (List Text) :=
  if isWanted then linesOf fs p else .ok []

/-- What is ignored below a directory. -/
structure Rules where
  root : Path
  rules : List Rule
  deriving DecidableEq, Repr

namespace Rules

/-- The rules of a project: those that always hold, those of its two files and those of its
settings, later ones over earlier ones. -/
def load (fs : FileSystem) (root : Path) (settings : Settings) : Except Error Rules := do
  let root := fs.canonical root
  let shared ← linesIf settings.useGitignore fs (root.child gitignoreName)
  let own ← linesIf settings.useOwnFile fs (root.child ownName)
  let lines := standardLines.map Text.ofString ++ shared ++ own ++ settings.extraPatterns
  return ⟨root, ← (gitignore.rulesOf lines).mapError .pattern⟩

/-- Whether a path from the directory is ignored; that of a directory may be so with a slash behind
it. -/
def ignoresRelative (r : Rules) (path : Text) (isDirectory : Bool) : Bool :=
  gitignore.decides r.rules path ||
    (isDirectory && gitignore.decides r.rules (path ++ [CodePoint.slash]))

/-- Whether a path is ignored. An absolute path has to lie below the directory, and may be found to
be a directory when it is not said to be one. -/
def ignores (r : Rules) (fs : FileSystem) (p : Path) (isDirectory : Bool) : Bool :=
  if p.isAbsolute then
    match p.below? r.root with
    | none => false
    | some path => r.ignoresRelative path.toText (isDirectory || fs.isDirectory p)
  else r.ignoresRelative p.toText isDirectory

end Rules

end MessageExtraction.Ignore
