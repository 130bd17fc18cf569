import MessageExtraction.Ignore.Rules
import MessageExtraction.Project.Emission
import MessageExtraction.Project.Walker
import MessageExtraction.Settings.Basic

namespace MessageExtraction

/-- Why a run over a project ended before its end. -/
inductive ProjectError where
  | settings (e : Settings.Error)
  | ignore (e : Ignore.Error)
  | language (e : Language.Error)
  | fault (f : Fault)
  deriving DecidableEq, Repr

/-- What became of the files of a run so far. -/
structure Tally where
  processed : Nat
  skipped : Nat
  failed : Nat
  messages : Nat
  catalogs : Nat
  warnings : Nat
  errors : List Text
  results : List FileResult

namespace Tally

def empty : Tally := ⟨0, 0, 0, 0, 0, 0, [], []⟩

def fail (t : Tally) (message : Text) : Tally :=
  { t with failed := t.failed + 1, errors := t.errors ++ [message] }

def skip (t : Tally) : Tally := { t with skipped := t.skipped + 1 }

def add (t : Tally) (r : FileResult) : Tally :=
  { t with
    processed := t.processed + 1
    messages := t.messages + r.messages.length
    catalogs := t.catalogs + (if r.output.isSome then 1 else 0)
    warnings := t.warnings + r.warnings.length
    results := t.results ++ [r] }

end Tally

/-- A run over files: the files as they are now, what was reported, and what has come of it. -/
structure ProjectRun where
  files : FileSystem
  logs : List LogEvent
  tally : Tally

namespace ProjectRun

def start (fs : FileSystem) : ProjectRun := ⟨fs, [], .empty⟩

/-- Extracts from one file of an enabled language. -/
def extractFile (run : ProjectRun) (options : Options) (root p : Path) :
    ProjectRun × Option Fault :=
  match run.files.read p with
  | .error e => ({ run with tally := run.tally.fail (failure e) }, none)
  | .ok f =>
    let x := Extraction.openSource (.ofFile f p.toText root) options
    let (files, x, outcome) := x.runOn run.files root
    let run := { run with files := files, logs := run.logs ++ x.logs }
    match outcome with
    | .ok r => ({ run with tally := run.tally.add r }, none)
    | .error (.file e) => ({ run with tally := run.tally.fail (failure e) }, none)
    | .error (.source (.rejected r)) => ({ run with tally := run.tally.fail r.text }, none)
    | .error (.source (.fault f)) => (run, some f)
where
  /-- An error of the files with the path of the source in front. -/
  failure (e : FileError) : Text := (Path.ofSource p root).toText ++ (": " : Text) ++ e.message

/-- Extracts from one file, or skips it if its language is not enabled. -/
def step (run : ProjectRun) (options : Options) (enabled : List Language) (root p : Path) :
    ProjectRun × Option Fault :=
  match Language.detect? enabled p with
  | none => ({ run with tally := run.tally.skip }, none)
  | some _ => run.extractFile options root p

/-- Extracts from files that are named, those that are not there being errors. -/
def namedSteps (run : ProjectRun) (options : Options) (enabled : List Language) (root cwd : Path) :
    List Path → ProjectRun × Option Fault
  | [] => (run, none)
  | p :: rest =>
    if run.files.contains (cwd.join p) then
      match run.step options enabled root (run.files.canonical (cwd.join p)) with
      | (run, none) => run.namedSteps options enabled root cwd rest
      | (run, some f) => (run, some f)
    else
      let message := p.toText ++ (": file not found" : Text)
      { run with tally := run.tally.fail message }.namedSteps options enabled root cwd rest

end ProjectRun

namespace Settings

/-- What is passed over in the project of settings. -/
def sieve (s : Settings) (fs : FileSystem) (rules : Ignore.Rules) : Sieve :=
  ⟨rules.ignores fs, s.maxKilobytes, some (s.languages.map some)⟩

/-- Extracts from the files that a walk takes, up to the first fault. -/
def walker (s : Settings) (enabled : List Language) (rules : Ignore.Rules) (root : Path) :
    Walker ProjectRun Fault where
  files := ProjectRun.files
  sieve fs := s.sieve fs rules
  visit run p := run.step s.extraction enabled root p

/-- Extracts from every file of a project that is not passed over. -/
def extractAll (s : Settings) (fs : FileSystem) : ProjectRun × Option ProjectError :=
  let run := ProjectRun.start fs
  let root := fs.canonical s.root
  match Ignore.Rules.load fs root s.ignore with
  | .error e => (run, some (.ignore e))
  | .ok rules =>
    match Language.enable s.languages with
    | .error e => (run, some (.language e))
    | .ok enabled =>
      let (_, run, fault) := (s.walker enabled rules root).walk root run
      (run, fault.map .fault)

/-- Extracts from files that are named, from a working directory. -/
def extractNamed (s : Settings) (fs : FileSystem) (cwd : Path) (paths : List Path) :
    ProjectRun × Option ProjectError :=
  let run := ProjectRun.start fs
  match Language.enable s.languages with
  | .error e => (run, some (.language e))
  | .ok enabled =>
    let (run, fault) := run.namedSteps s.extraction enabled s.root cwd paths
    (run, fault.map .fault)

end Settings

end MessageExtraction
