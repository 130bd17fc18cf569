import MessageExtraction.Path
import MessageExtraction.Text.Quoted

namespace MessageExtraction

inductive Language where
  | javascript
  | typescript
  | tsx
  deriving DecidableEq, Repr

namespace Language

def all : List Language := [.javascript, .typescript, .tsx]

def name : Language → Text
  | .javascript => "javascript"
  | .typescript => "typescript"
  | .tsx => "tsx"

def extensions : Language → List String
  | .javascript => [".js", ".jsx", ".mjs", ".cjs"]
  | .typescript => [".ts", ".mts", ".cts"]
  | .tsx => [".tsx"]

def ofName? (t : Text) : Option Language := all.find? (·.name == t)

/-- The language of a file by its extension, whatever the case of its letters. -/
def ofPath? (p : Path) : Option Language :=
  all.find? fun l ↦ l.extensions.any fun e ↦ Text.ofString e == Text.lower p.suffix

/-- Why a source cannot be read in a language. -/
inductive Error where
  | unsupported (name : Text)
  | notEnabled (name : Text)
  | notDetected (filename : Text)
  deriving DecidableEq, Repr

/-- The names in brackets, each quoted. -/
def listText (names : List Text) : Text :=
  CodePoint.openBracket :: Text.joinWith (", " : Text) (names.map Text.quoted)
    ++ [CodePoint.closeBracket]

def Error.message : Error → Text
  | .unsupported name =>
    ("Unsupported language: " : Text) ++ name ++ (". Available: " : Text)
      ++ listText (all.map Language.name)
  | .notEnabled name => ("Language not enabled: " : Text) ++ name
  | .notDetected filename =>
    ("Cannot detect a supported language for " : Text) ++ filename

/-- The languages that names stand for, each once, in the order in which they are first named. -/
def enable (names : List Text) : Except Error (List Language) := do
  let languages ← names.mapM fun n ↦
    match ofName? n with
    | some l => .ok l
    | none => .error (.unsupported n)
  return languages.foldl (fun seen l ↦ if seen.contains l then seen else seen ++ [l]) []

/-- The language of a file, if it is enabled. -/
def detect? (enabled : List Language) (p : Path) : Option Language :=
  (ofPath? p).filter enabled.contains

/-- The enabled language of a name. -/
def require (enabled : List Language) (t : Text) : Except Error Language :=
  match enabled.find? (·.name == t) with
  | some l => .ok l
  | none => .error (.notEnabled t)

/-- The language of a source: the one that is given, or that of its extension. -/
def choose (enabled : List Language) (given : Option Text) (filename : Text) :
    Except Error Language :=
  match given with
  | some name => require enabled name
  | none =>
    match detect? enabled (Path.ofText filename) with
    | some l => .ok l
    | none => .error (.notDetected filename)

end Language

end MessageExtraction
