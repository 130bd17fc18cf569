import MessageExtraction.Settings.Basic

/-!
Settings as a document that people edit: sections, and under each its entries, one on a line. A text
stands bare unless it would be read as something else.
-/

namespace MessageExtraction.Settings

/-- What an entry of a document holds. -/
inductive Entry where
  | word (t : Text)
  | text (t : Text)
  | texts (ts : List Text)
  deriving DecidableEq, Repr

def Entry.bool (b : Bool) : Entry := .word (if b then "true" else "false")

/-- The sections of a document with their entries. -/
def sections (s : Settings) : List (Text × List (Text × Entry)) :=
  [("project", [("name", .text s.name), ("root", .text s.root.toText)]),
    ("ignore",
      [("use_gitignore", .bool s.ignore.useGitignore),
        ("use_intlextractignore", .bool s.ignore.useOwnFile),
        ("extra_patterns", .texts s.ignore.extraPatterns)]),
    ("parsing",
      [("languages", .texts s.languages), ("max_file_size_kb", .word (Text.ofInt s.maxKilobytes))]),
    ("extraction",
      [("messagesDir", match s.extraction.messagesDir with
          | some p => .text p.toText
          | none => .word "null"),
        ("extractSourceLocation", .bool s.extraction.keepLocation),
        ("enforceDescriptions", .bool s.extraction.enforceDescriptions),
        ("moduleSourceName", .text s.extraction.moduleName)])]

/-- Words that are read as something else than texts. -/
def reservedWords : List String :=
  ["", "~", "null", "Null", "NULL", "<<", "=", "yes", "Yes", "YES", "no", "No", "NO", "true", "True",
    "TRUE", "false", "False", "FALSE", "on", "On", "ON", "off", "Off", "OFF", ".inf", ".Inf",
    ".INF", "+.inf", "+.Inf", "+.INF", "-.inf", "-.Inf", "-.INF", ".nan", ".NaN", ".NAN"]

def isDigitOrBreak (c : CodePoint) : Bool := c.isDigit || c == CodePoint.underscore

/-- A digit, then digits that may be kept apart by underscores. -/
def isCount : Text → Bool
  | c :: t => c.isDigit && t.all isDigitOrBreak
  | [] => false

def unsigned : Text → Text
  | CodePoint.plus :: t | CodePoint.hyphen :: t => t
  | t => t

/-- Digits in a base that two characters announce. -/
def isBased (announced : String) (isDigit : CodePoint → Bool) (t : Text) : Bool :=
  match Text.dropBeginning? announced t with
  | some digits => !digits.isEmpty && digits.all fun c ↦ isDigit c || c == CodePoint.underscore
  | none => false

/-- A number below sixty, as minutes and seconds are written. -/
def isSixtieth : Text → Bool
  | [c] => c.isDigit
  | [c, d] => 0x30 ≤ c && c ≤ 0x35 && d.isDigit
  | _ => false

/-- Hours, minutes and seconds. -/
def isClock (t : Text) : Bool :=
  match Text.splitAt CodePoint.colon t with
  | first :: second :: rest => isCount first && (second :: rest).all isSixtieth
  | _ => false

def isExponent : Text → Bool
  | [] => true
  | e :: sign :: digits =>
    (e == 0x65 || e == 0x45) && (sign == CodePoint.plus || sign == CodePoint.hyphen)
      && !digits.isEmpty && digits.all CodePoint.isDigit
  | _ => false

/-- Digits after a point, and an exponent. -/
def isFraction (t : Text) : Bool := isExponent (t.dropWhile isDigitOrBreak)

/-- Whether a text is read as a number. -/
def isNumeral (t : Text) : Bool :=
  let body := unsigned t
  let whole := body.takeWhile (· != CodePoint.period)
  match body.drop whole.length with
  | [] =>
    isBased "0b" (fun c ↦ c == 0x30 || c == 0x31) body || isBased "0x" CodePoint.isHex body
      || isBased "0" (fun c ↦ 0x30 ≤ c && c ≤ 0x37) body || body == [0x30]
      || (body.head? != some 0x30 && (isCount body || isClock body))
  | _ :: fraction =>
    (isCount whole && isFraction fraction)
      || (whole.isEmpty && body == t && fraction.head?.any CodePoint.isDigit && isFraction fraction)
      || (isClock whole && fraction.all isDigitOrBreak)

/-- Whether a text is read as a day: four digits, two and two. -/
def isDay (t : Text) : Bool :=
  match Text.splitAt CodePoint.hyphen t with
  | [year, month, day] =>
    year.length == 4 && month.length == 2 && day.length == 2
      && (year ++ month ++ day).all CodePoint.isDigit
  | _ => false

def isSpaced (c : Option CodePoint) : Bool :=
  match c with
  | none => true
  | some c => c == CodePoint.space || c == CodePoint.tab || c == CodePoint.lineFeed
      || c == CodePoint.carriageReturn || c == 0

/-- Marks that no bare text begins with. -/
def openingMarks : Text := "#,[]\x7b\x7d&*!|>'\"%@`"

/-- Whether a colon or hash inside a text would end it. -/
def hasBreakingMark : Text → Bool
  | c :: CodePoint.hash :: rest => isSpaced (some c) || hasBreakingMark (CodePoint.hash :: rest)
  | CodePoint.colon :: rest => isSpaced rest.head? || hasBreakingMark rest
  | _ :: rest => hasBreakingMark rest
  | [] => false

def opensOtherwise : Text → Bool
  | c :: rest =>
    openingMarks.contains c
      || ((c == CodePoint.question || c == CodePoint.hyphen) && isSpaced rest.head?)
  | [] => false

def isPlainPoint (c : CodePoint) : Bool := 0x20 ≤ c && c ≤ 0x7E

/-- Whether a text can stand without quotes. -/
def isBare (t : Text) : Bool :=
  !(reservedWords.map Text.ofString).contains t && !isNumeral t && !isDay t
    && !t.startsWith "---" && !t.startsWith "..." && !opensOtherwise t && !hasBreakingMark t
    && t.head? != some CodePoint.space && t.getLast? != some CodePoint.space

/-- The letter that names a character behind a backslash. -/
def escapeLetters : List (CodePoint × String) :=
  [(0, "0"), (7, "a"), (8, "b"), (9, "t"), (10, "n"), (11, "v"), (12, "f"), (13, "r"), (27, "e"),
    (0x22, "\""), (0x5C, "\\"), (0x85, "N"), (0xA0, "_"), (0x2028, "L"), (0x2029, "P")]

def upperHex (width : Nat) (c : CodePoint) : Text :=
  (Text.padLeft width 0x30 (Text.ofNatHex c)).map fun d ↦ if 0x61 ≤ d then d - 0x20 else d

def escaped (c : CodePoint) : Text :=
  match escapeLetters.lookup c with
  | some letter => CodePoint.backslash :: Text.ofString letter
  | none =>
    if isPlainPoint c then [c]
    else if c ≤ 0xFF then ("\\x" : Text) ++ upperHex 2 c
    else if c ≤ 0xFFFF then ("\\u" : Text) ++ upperHex 4 c
    else ("\\U" : Text) ++ upperHex 8 c

/-- A text as it stands in a document: bare, or between quotes of the simplest kind that will do. -/
def scalar (t : Text) : Text :=
  if !t.all isPlainPoint then
    CodePoint.doubleQuote :: t.flatMap escaped ++ [CodePoint.doubleQuote]
  else if isBare t then t
  else
    CodePoint.singleQuote
      :: t.flatMap (fun c ↦ if c = CodePoint.singleQuote then [c, c] else [c])
      ++ [CodePoint.singleQuote]

def lineOf (t : Text) : Text := t ++ [CodePoint.lineFeed]

def Entry.lines (name : Text) : Entry → Text
  | .word t => lineOf (("  " : Text) ++ name ++ (": " : Text) ++ t)
  | .text t => lineOf (("  " : Text) ++ name ++ (": " : Text) ++ scalar t)
  | .texts [] => lineOf (("  " : Text) ++ name ++ (": []" : Text))
  | .texts ts => lineOf (("  " : Text) ++ name ++ (":" : Text))
      ++ ts.flatMap fun t ↦ lineOf (("  - " : Text) ++ scalar t)

/-- The document that says what settings are. -/
def document (s : Settings) : Text :=
  s.sections.flatMap fun (name, entries) ↦
    lineOf (name ++ [CodePoint.colon]) ++ entries.flatMap fun (name, e) ↦ e.lines name

/-- The data of that document. -/
def toJson (s : Settings) : Json :=
  .object
    [("project", .object [("name", .text s.name), ("root", .text s.root.toText)]),
      ("ignore", s.ignore.toJson),
      ("parsing",
        .object [("languages", .list (s.languages.map .text)),
          ("max_file_size_kb", .int s.maxKilobytes)]),
      ("extraction",
        .object
          [("messagesDir", s.extraction.messagesDir.elim .null fun p ↦ .text p.toText),
            ("extractSourceLocation", .bool s.extraction.keepLocation),
            ("enforceDescriptions", .bool s.extraction.enforceDescriptions),
            ("moduleSourceName", .text s.extraction.moduleName)])]

end MessageExtraction.Settings
