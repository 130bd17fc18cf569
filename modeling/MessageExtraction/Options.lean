import MessageExtraction.Validation

namespace MessageExtraction

/-- What a run of the extraction may be told. -/
structure Options where
  /-- The directory below which catalogs are written; none to write none. -/
  messagesDir : Option Path
  /-- Whether messages are stored with the place they were found at. -/
  keepLocation : Bool
  /-- Whether a message without a description is an error. -/
  enforceDescriptions : Bool
  /-- The module that the components are imported from. -/
  moduleName : Text
  deriving DecidableEq, Repr

namespace Options

def standard : Options := ⟨none, false, false, "react-intl"⟩

open Validation in
def ofMembers (members : List (Text × Json)) : Checked Options := do
  let (messagesDir, keepLocation, enforceDescriptions, moduleName) ←
    both (field members "messagesDir" "messages_dir" standard.messagesDir (optional path))
      (both (field members "extractSourceLocation" "extract_source_location" standard.keepLocation
          bool)
        (both (field members "enforceDescriptions" "enforce_descriptions"
            standard.enforceDescriptions bool)
          (field members "moduleSourceName" "module_source_name" standard.moduleName text)))
  return ⟨messagesDir, keepLocation, enforceDescriptions, moduleName⟩

def ofJson : Json → Validation.Checked Options := Validation.model ofMembers

end Options

end MessageExtraction
