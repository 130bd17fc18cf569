import MessageExtraction.CommandLine.Arguments
import MessageExtraction.CommandLine.Output
import MessageExtraction.Project.Run
import MessageExtraction.Settings.Document

namespace MessageExtraction.CommandLine

/-- What has come of a command so far: the files as they are now, what it has printed, what was
reported, and what it has to complain of. -/
structure Session where
  files : FileSystem
  output : List Printed
  logs : List LogEvent
  complaints : List Text

/-- Why a command broke off. -/
inductive Breakdown where
  | project (e : ProjectError)
  | file (e : FileError)
  | fault (f : Fault)
  deriving DecidableEq, Repr

/-- How a command ended. -/
inductive Ending where
  | finished (exitCode : Nat)
  | broken (e : Breakdown)
  deriving DecidableEq, Repr

def Ending.exitCode : Ending → Nat
  | .finished n => n
  | .broken _ => 1

def WriteError.toBreakdown : WriteError → Breakdown
  | .file e => .file e
  | .fault f => .fault f

namespace Session

def start (fs : FileSystem) : Session := ⟨fs, [], [], []⟩

def complain (s : Session) (t : Text) : Session := { s with complaints := s.complaints ++ [t] }

/-- Prints something, if it can be encoded. -/
def say (s : Session) (p : Printed) : Except Breakdown Session :=
  if p.isEncodable then .ok { s with output := s.output ++ [p] } else .error (.fault .unencodable)

/-- Goes on with what is left to do, unless something broke off. -/
def andThen (s : Session) (x : Except Breakdown Session)
    (next : Session → Session × Ending) : Session × Ending :=
  match x with
  | .ok s => next s
  | .error e => (s, .broken e)

def sayAll (s : Session) (exitCode : Nat) : List Printed → Session × Ending
  | [] => (s, .finished exitCode)
  | p :: rest => s.andThen (s.say p) fun s ↦ s.sayAll exitCode rest

end Session

/-- What a new project ignores. -/
def ignoreTemplate : Text :=
  ["# intl-extract ignore patterns", "# Uses .gitignore syntax", "*.test.js", "*.spec.js",
    "__tests__/", "stories/"].flatMap fun line ↦ Settings.lineOf (Text.ofString line)

/-- The settings that a new project gets. -/
def settingsTemplate (name : Text) : Settings :=
  { Settings.standard with
    name := name
    extraction := { Options.standard with messagesDir := some ⟨[], ["build", "messages"]⟩ } }

/-- Writes a file with the directories that it needs. -/
def writeSettings (s : Session) (p : Path) (settings : Settings) : Session × Except Breakdown Unit :=
  match s.files.makeDirectories p.parent with
  | (fs, .error e) => ({ s with files := fs }, .error (.file e))
  | (fs, .ok ()) =>
    let (fs, outcome) := fs.writeText p settings.document (some settings.toJson)
    ({ s with files := fs }, outcome.mapError WriteError.toBreakdown)

def writeTemplate (s : Session) (p : Path) : Session × Except Breakdown Unit :=
  let (fs, outcome) := s.files.writeText p ignoreTemplate none
  ({ s with files := fs }, outcome.mapError WriteError.toBreakdown)

/-- Writes something unless it is there, and says which. -/
def provide (s : Session) (p shown : Path) (write : Session → Session × Except Breakdown Unit)
    (next : Session → Session × Ending) : Session × Ending :=
  if s.files.contains p then
    s.andThen (s.say (.text (("  exists  " : Text) ++ shown.toText))) next
  else
    match write s with
    | (s, .error e) => (s, .broken e)
    | (s, .ok ()) => s.andThen (s.say (.text (("  created " : Text) ++ shown.toText))) next

def init (s : Session) (cwd path : Path) : Session × Ending :=
  let root := s.files.canonical (cwd.join path)
  let settingsFile := root.join Settings.location
  let ignoreFile := root.child Ignore.ownName
  provide s settingsFile Settings.location
    (fun s ↦ writeSettings s settingsFile (settingsTemplate root.name)) fun s ↦
      provide s ignoreFile ⟨[], [Ignore.ownName]⟩ (fun s ↦ writeTemplate s ignoreFile) fun s ↦
        s.sayAll 0
          [.text (Printed.shown (("\nintl-extract initialized in " : Text)
              ++ Markup.plain root.toText)),
            .text "Run: intl-extract extract"]

/-- The table of what became of the files of a project. -/
def tallyTable (t : Tally) : Printed :=
  .table "Extraction Results"
    [["Files processed", Text.ofNat t.processed], ["Files skipped", Text.ofNat t.skipped],
      ["Files failed", Text.ofNat t.failed], ["Messages extracted", Text.ofNat t.messages],
      ["Catalogs written", Text.ofNat t.catalogs], ["Warnings", Text.ofNat t.warnings]]

/-- The number of errors, then each of them. -/
def errorTexts (errors : List Text) : List Text :=
  if errors.isEmpty then []
  else
    (("\nErrors (" : Text) ++ Text.ofNat errors.length ++ ("):" : Text))
      :: errors.map fun e ↦ Printed.shown (("  - " : Text) ++ e)

/-- Options with what the command line says over them. -/
def overridden (fs : FileSystem) (cwd : Path) (options : Options) (messagesDir : Option Path)
    (keepLocation enforceDescriptions : Bool) (moduleName : Option Text) : Options :=
  { messagesDir := (messagesDir.map fun p ↦ fs.canonical (cwd.join p)).or options.messagesDir
    keepLocation := options.keepLocation || keepLocation
    enforceDescriptions := options.enforceDescriptions || enforceDescriptions
    moduleName := (moduleName.filter fun t ↦ !t.isEmpty).getD options.moduleName }

def extract (s : Session) (cwd path : Path) (override : Options → Options) : Session × Ending :=
  match Settings.load s.files (s.files.canonical (cwd.join path)) with
  | .error e => (s, .broken (.project (.settings e)))
  | .ok settings =>
    let (run, stopped) :=
      { settings with extraction := override settings.extraction }.extractAll s.files
    let s := { s with files := run.files, logs := s.logs ++ run.logs }
    match stopped with
    | some e => (s, .broken (.project e))
    | none =>
      s.andThen (s.say (tallyTable run.tally)) fun s ↦
        ((errorTexts run.tally.errors).foldl Session.complain s,
          .finished (if run.tally.errors.isEmpty then 0 else 1))

/-- The description of a message in one cell. -/
def descriptionCell : Json → Except Fault Text
  | .null => .ok []
  | .bool b => .ok (if b then "True" else "False")
  | .int n => Value.integerText n
  | .float x => .ok (Number.written Number.standard x)
  | .text t => .ok t
  | j => j.print .inline

/-- A text in a cell, tags shown as they are. -/
def cell (t : Text) : Text := Printed.shown (Markup.plain (Markup.escape t))

def messageRow (m : Message) : Except Fault (List Text) := do
  let description ← descriptionCell m.description
  return [cell (← m.id.shown), cell (m.defaultMessage.getD []), cell description,
    m.start.elim [] fun p ↦ Text.ofInt p.line]

def inspectOutput (r : FileResult) (file : Path) (asJson : Bool) : Except Fault (List Printed) :=
  if asJson then do return [.text (← Message.dump r.messages)]
  else do
    let rows ← r.messages.mapM messageRow
    let title := Printed.shown (Markup.plain (("Messages in " : Text) ++ file.toText))
    return .table title rows
      :: r.warnings.map fun w ↦ .text (("Warning: " : Text) ++ cell w)

def inspect (s : Session) (cwd file : Path) (asJson enforceDescriptions : Bool) :
    Session × Ending :=
  let name := Printed.shown (Markup.plain file.toText)
  if !s.files.contains (cwd.join file) then
    (s.complain (("File not found: " : Text) ++ name), .finished 1)
  else
    match s.files.read (cwd.join file) with
    | .error e => (s, .broken (.file e))
    | .ok f =>
      match Language.choose Language.all none file.toText with
      | .error e => (s.complain (errorLine e.message), .finished 1)
      | .ok _ =>
        let options := { Options.standard with
          keepLocation := true, enforceDescriptions := enforceDescriptions }
        let (x, outcome) := (Extraction.openSource (.ofFile f file.toText cwd) options).run
        let s := { s with logs := s.logs ++ x.logs }
        match outcome with
        | .error (.rejected r) => (s.complain (Printed.shown r.text), .finished 1)
        | .error (.fault f) =>
          if f.isOfValue then (s.complain (errorLine f.message), .finished 1)
          else (s, .broken (.fault f))
        | .ok r =>
          match inspectOutput r file asJson with
          | .error f => (s, .broken (.fault f))
          | .ok output => s.sayAll 0 output
where
  /-- A message of a value that was wrong. -/
  errorLine (message : Text) : Text :=
    ("Error: " : Text) ++ Printed.shown (Markup.plain message)

/-- Runs a command in a working directory. -/
def run (fs : FileSystem) (cwd : Path) : Command → Session × Ending
  | .init path => init (.start fs) cwd path
  | .extract path messagesDir keepLocation enforceDescriptions moduleName =>
    extract (.start fs) cwd path fun options ↦
      overridden fs cwd options messagesDir keepLocation enforceDescriptions moduleName
  | .inspect file asJson enforceDescriptions =>
    inspect (.start fs) cwd file asJson enforceDescriptions

/-- What is written to the stream of errors: the events that are reported, then the complaints. -/
def errorLines (time : Text) (isVerbose : Bool) (s : Session) : List Text :=
  ((s.logs.filter fun e ↦ isVerbose || e.isWarning).map (LogEvent.line time) ++ s.complaints).map
    Text.escapeSurrogates

end MessageExtraction.CommandLine
