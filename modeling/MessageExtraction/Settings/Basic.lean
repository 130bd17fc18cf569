import MessageExtraction.Fault
import MessageExtraction.FileSystem.Basic
import MessageExtraction.Ignore.Rules
import MessageExtraction.Language
import MessageExtraction.Options
import MessageExtraction.Text.Lines

namespace MessageExtraction

/-- The settings of a project. -/
structure Settings where
  name : Text
  root : Path
  ignore : Ignore.Settings
  /-- The names of the languages whose files are read. -/
  languages : List Text
  /-- The size above which a file is passed over. -/
  maxKilobytes : Int
  extraction : Options
  deriving DecidableEq, Repr

namespace Settings

def standard : Settings :=
  ⟨"my-project", ⟨[], []⟩, .standard, Language.all.map Language.name, 500, .standard⟩

open Validation

def sectionNames : List String := ["project", "ignore", "parsing", "extraction"]

/-- What is wrong with the names of sections that there are none of. -/
def unknownSections (members : List (Text × Json)) : List Issue :=
  (members.filter fun (name, _) ↦ !(sectionNames.map Text.ofString).contains name).map
    fun (name, _) ↦ ⟨[name], .extraForbidden⟩

def noUnknown (members : List (Text × Json)) : Checked Unit :=
  if (unknownSections members).isEmpty then .ok () else .error (unknownSections members)

def projectSection (members : List (Text × Json)) : Checked (Text × Path) :=
  both (field members "name" "name" standard.name text)
    (field members "root" "root" standard.root fun j ↦ (text j).map Path.ofText)

def parsingSection (members : List (Text × Json)) : Checked (List Text × Int) :=
  both (field members "languages" "languages" standard.languages (list text))
    (field members "max_file_size_kb" "max_file_size_kb" standard.maxKilobytes int)

def ofMembers (members : List (Text × Json)) : Checked Settings := do
  let (_, (name, root), ignore, (languages, maxKilobytes), extraction) ←
    both (noUnknown members)
      (both (field members "project" "project" (standard.name, standard.root)
          (model projectSection))
        (both (field members "ignore" "ignore" standard.ignore Ignore.Settings.ofJson)
          (both (field members "parsing" "parsing" (standard.languages, standard.maxKilobytes)
              (model parsingSection))
            (field members "extraction" "extraction" standard.extraction Options.ofJson))))
  return ⟨name, root, ignore, languages, maxKilobytes, extraction⟩

/-- Why settings cannot be used. -/
inductive Error where
  | file (e : FileError)
  | fault (f : Fault)
  /-- The file is no document. -/
  | unreadable
  /-- The document is not made of sections. -/
  | noSections
  | invalid (issues : List Issue)
  deriving DecidableEq, Repr

/-- Whether a document says nothing: it holds blank lines and comments only. -/
def isSilent (t : Text) : Bool :=
  (Text.lines t).all fun line ↦
    let rest := line.dropWhile (· == CodePoint.space)
    rest.isEmpty || rest.head? == some CodePoint.hash

/-- The data of a document. -/
def dataOf (f : File) : Except Error Json :=
  match f.data with
  | some j => .ok j
  | none => do
    let t ← (Utf8.decode f.bytes).mapError fun e ↦ .fault (.undecodable e)
    if isSilent t then return .null else throw .unreadable

def ofFile (f : File) : Except Error Settings := do
  match ← dataOf f with
  | .null => (ofMembers []).mapError .invalid
  | .object members => (ofMembers members).mapError .invalid
  | _ => throw .noSections

/-- Where a project keeps its settings. -/
def location : Path := ⟨[], ["config", "intl-extract.yaml"]⟩

/-- Settle what a path in the settings starts from. -/
def settle (fs : FileSystem) (base : Path) (s : Settings) : Settings :=
  let root := fs.canonical (base.join s.root)
  { s with
    root := root
    extraction := { s.extraction with messagesDir := s.extraction.messagesDir.map root.join } }

/-- The settings of the project in a directory, the standard ones if it has none of its own. -/
def load (fs : FileSystem) (base : Path) : Except Error Settings := do
  let file := base.join location
  let s ← if fs.contains file then do ofFile (← (fs.read file).mapError .file) else .ok standard
  return s.settle fs base

end Settings

end MessageExtraction
