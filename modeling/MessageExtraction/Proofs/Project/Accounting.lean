import Mathlib
import MessageExtraction.Project.Run
import MessageExtraction.Proofs.Extraction.Declarations
import MessageExtraction.Proofs.Project.Faults
import MessageExtraction.Proofs.Project.Walker

namespace MessageExtraction

/-- How a file counts in a run. -/
inductive Verdict where
  | processed (r : FileResult)
  | skipped
  | failed (message : Text)

namespace Verdict

def result? : Verdict → Option FileResult
  | processed r => some r
  | _ => none

def error? : Verdict → Option Text
  | failed message => some message
  | _ => none

def isSkipped : Verdict → Bool
  | skipped => true
  | _ => false

end Verdict

namespace Tally

/-- What has come of files that each count as said. -/
def ofVerdicts (vs : List Verdict) : Tally :=
  let results := vs.filterMap Verdict.result?
  let errors := vs.filterMap Verdict.error?
  { processed := results.length
    skipped := vs.countP Verdict.isSkipped
    failed := errors.length
    messages := (results.map (·.messages.length)).sum
    catalogs := results.countP (·.output.isSome)
    warnings := (results.map (·.warnings.length)).sum
    errors := errors
    results := results }

def count (t : Tally) : Verdict → Tally
  | .processed r => t.add r
  | .skipped => t.skip
  | .failed message => t.fail message

theorem ofVerdicts_nil : ofVerdicts [] = empty := rfl

theorem ofVerdicts_concat (vs : List Verdict) (v : Verdict) :
    ofVerdicts (vs ++ [v]) = (ofVerdicts vs).count v := by
  cases v <;>
    simp [ofVerdicts, count, add, skip, fail, Verdict.result?, Verdict.error?, Verdict.isSkipped,
      List.filterMap_cons, List.countP_singleton]

/-- Every file counts once. -/
theorem total_ofVerdicts (vs : List Verdict) :
    (ofVerdicts vs).processed + (ofVerdicts vs).skipped + (ofVerdicts vs).failed = vs.length := by
  induction vs with
  | nil => rfl
  | cons v vs ih =>
    simp only [ofVerdicts] at ih ⊢
    cases v <;>
      simp [Verdict.result?, Verdict.error?, Verdict.isSkipped, List.filterMap_cons,
        List.countP_cons] <;> omega

end Tally

namespace ProjectRun

/-- Extracts from files in order up to the first fault. -/
def steps (run : ProjectRun) (options : Options) (enabled : List Language) (root : Path) :
    List Path → ProjectRun × Option Fault
  | [] => (run, none)
  | p :: rest =>
    match run.step options enabled root p with
    | (run, none) => run.steps options enabled root rest
    | (run, some f) => (run, some f)

section Verdicts

variable (options : Options) (enabled : List Language) (root : Path)

def opened (f : File) (p : Path) : Extraction :=
  Extraction.openSource (.ofFile f p.toText root) options

/-- From files as they are, a file ends with a verdict and leaves files as they are then. -/
inductive Ends (fs : FileSystem) (p : Path) : Verdict → FileSystem → Prop
  | skipped : Language.detect? enabled p = none → Ends fs p .skipped fs
  | unreadable {e : FileError} : (Language.detect? enabled p).isSome → fs.read p = .error e →
      Ends fs p (.failed (extractFile.failure root p e)) fs
  | processed {f : File} {after : FileSystem} {x : Extraction} {r : FileResult} :
      (Language.detect? enabled p).isSome → fs.read p = .ok f →
      (opened options root f p).runOn fs root = (after, x, .ok r) →
      Ends fs p (.processed r) after
  | unwritten {f : File} {after : FileSystem} {x : Extraction} {e : FileError} :
      (Language.detect? enabled p).isSome → fs.read p = .ok f →
      (opened options root f p).runOn fs root = (after, x, .error (.file e)) →
      Ends fs p (.failed (extractFile.failure root p e)) after
  | rejected {f : File} {after : FileSystem} {x : Extraction} {r : Rejection} :
      (Language.detect? enabled p).isSome → fs.read p = .ok f →
      (opened options root f p).runOn fs root = (after, x, .error (.source (.rejected r))) →
      Ends fs p (.failed r.text) after

/-- A file of an enabled language that can be read ends in a fault, which is no verdict. -/
def Escapes (fs : FileSystem) (p : Path) (fault : Fault) : Prop :=
  (Language.detect? enabled p).isSome ∧
    ∃ f, fs.read p = .ok f ∧ (opened options root f p).Faults fs root fault

/-- Files that are taken in order end each with its verdict, the next one finding the files as the
one before has left them. -/
inductive Accounts : FileSystem → List Path → List Verdict → FileSystem → Prop
  | nil (fs : FileSystem) : Accounts fs [] [] fs
  | cons {fs mid after : FileSystem} {p : Path} {v : Verdict} {ps : List Path}
      {vs : List Verdict} : Ends options enabled root fs p v mid → Accounts mid ps vs after →
      Accounts fs (p :: ps) (v :: vs) after

variable {options enabled root}

theorem Accounts.length_eq {fs after : FileSystem} {ps : List Path} {vs : List Verdict}
    (h : Accounts options enabled root fs ps vs after) : vs.length = ps.length := by
  induction h with
  | nil => rfl
  | cons _ _ ih => rw [List.length_cons, List.length_cons, ih]

theorem step_of_enabled {p : Path} (run : ProjectRun)
    (h : (Language.detect? enabled p).isSome) :
    run.step options enabled root p = run.extractFile options root p := by
  obtain ⟨l, hl⟩ := Option.isSome_iff_exists.mp h
  rw [step, hl]

/-- A step over a file that ends with a verdict counts it. -/
theorem step_of_ends (run : ProjectRun) {p : Path} {v : Verdict} {after : FileSystem}
    (h : Ends options enabled root run.files p v after) :
    ∃ logs, run.step options enabled root p = (⟨after, logs, run.tally.count v⟩, none) := by
  cases h with
  | skipped hl =>
    refine ⟨run.logs, ?_⟩
    rw [step, hl]
    rfl
  | unreadable hl hf =>
    refine ⟨run.logs, ?_⟩
    rw [step_of_enabled run hl, extractFile, hf]
    rfl
  | @processed f _ x r hl hf hr | @unwritten f _ x r hl hf hr | @rejected f _ x r hl hf hr =>
    refine ⟨run.logs ++ x.logs, ?_⟩
    rw [opened] at hr
    rw [step_of_enabled run hl, extractFile, hf]
    simp only [hr]
    rfl

theorem step_of_escapes (run : ProjectRun) {p : Path} {fault : Fault}
    (h : Escapes options enabled root run.files p fault) :
    ∃ stopped, run.step options enabled root p = (stopped, some fault) ∧
      stopped.tally = run.tally := by
  obtain ⟨hl, f, hf, hr⟩ := h
  rw [← Extraction.runOn_eq_fault_iff, opened] at hr
  rw [step_of_enabled run hl, extractFile, hf]
  rcases he : (Extraction.openSource (.ofFile f p.toText root) options).runOn run.files root with
    ⟨after, x, outcome⟩
  obtain rfl : outcome = .error (.source (.fault fault)) := by simpa [he] using hr
  simp only [he]
  exact ⟨_, rfl, rfl⟩

/-- A file ends with a verdict or escapes, whatever is in it. -/
theorem ends_or_escapes (options : Options) (enabled : List Language) (root : Path)
    (fs : FileSystem) (p : Path) :
    (∃ v after, Ends options enabled root fs p v after) ∨
      ∃ fault, Escapes options enabled root fs p fault := by
  cases hl : Language.detect? enabled p with
  | none => exact .inl ⟨_, _, .skipped hl⟩
  | some l =>
    have hs : (Language.detect? enabled p).isSome := by rw [hl]; rfl
    cases hf : fs.read p with
    | error e => exact .inl ⟨_, _, .unreadable hs hf⟩
    | ok f =>
      rcases hr : (opened options root f p).runOn fs root with ⟨after, x, ((r | fault) | e) | r⟩
      · exact .inl ⟨_, _, .rejected hs hf hr⟩
      · exact .inr ⟨fault, hs, f, hf, Extraction.runOn_eq_fault_iff.mp (by rw [hr])⟩
      · exact .inl ⟨_, _, .unwritten hs hf hr⟩
      · exact .inl ⟨_, _, .processed hs hf hr⟩

theorem ends_of_step {p : Path} {run next : ProjectRun}
    (h : run.step options enabled root p = (next, none)) :
    ∃ v, Ends options enabled root run.files p v next.files ∧ next.tally = run.tally.count v := by
  rcases ends_or_escapes options enabled root run.files p with ⟨v, after, hends⟩ | ⟨fault, hescapes⟩
  · obtain ⟨logs, hstep⟩ := step_of_ends run hends
    obtain ⟨rfl, -⟩ := Prod.mk.inj (hstep.symm.trans h)
    exact ⟨v, hends, rfl⟩
  · obtain ⟨stopped, hstep, -⟩ := step_of_escapes run hescapes
    cases hstep.symm.trans h

/-- A run over files that end with verdicts goes on to what follows them, with their count. -/
theorem steps_of_accounts (run : ProjectRun) {ps : List Path} {vs vs₀ : List Verdict}
    {after : FileSystem} (h : Accounts options enabled root run.files ps vs after)
    (ht : run.tally = .ofVerdicts vs₀) (rest : List Path) :
    ∃ logs, run.steps options enabled root (ps ++ rest) =
      (mk after logs (.ofVerdicts (vs₀ ++ vs))).steps options enabled root rest := by
  -- The count of the files before is kept general: each step moves one verdict into it.
  induction ps generalizing run vs vs₀ with
  | nil =>
    cases h
    exact ⟨run.logs, by rw [List.append_nil, ← ht, List.nil_append]⟩
  | cons p ps ih =>
    cases h with
    | @cons _ mid _ _ v _ vs he ha =>
      obtain ⟨logs, hs⟩ := step_of_ends run he
      have hc : run.tally.count v = .ofVerdicts (vs₀ ++ [v]) := by rw [ht, Tally.ofVerdicts_concat]
      obtain ⟨logs', hr⟩ := ih ⟨mid, logs, run.tally.count v⟩ ha hc
      refine ⟨logs', ?_⟩
      rw [List.cons_append, steps, hs]
      simpa using hr

/-- Files that are taken in order all end with verdicts, or a first one of them escapes. -/
theorem accounts_or_escapes (options : Options) (enabled : List Language) (root : Path)
    (fs : FileSystem) (ps : List Path) :
    (∃ vs after, Accounts options enabled root fs ps vs after) ∨
      ∃ before p after vs mid fault, ps = before ++ p :: after ∧
        Accounts options enabled root fs before vs mid ∧
        Escapes options enabled root mid p fault := by
  induction ps generalizing fs with
  | nil => exact .inl ⟨[], fs, .nil fs⟩
  | cons p ps ih =>
    obtain ⟨v, mid, he⟩ | ⟨fault, he⟩ := ends_or_escapes options enabled root fs p
    · obtain ⟨vs, after, ha⟩ | ⟨before, q, after, vs, last, fault, rfl, ha, hq⟩ := ih mid
      · exact .inl ⟨v :: vs, after, .cons he ha⟩
      · exact .inr ⟨p :: before, q, after, v :: vs, last, fault, rfl, .cons he ha, hq⟩
    · exact .inr ⟨[], p, ps, [], fs, fault, rfl, .nil fs, he⟩

end Verdicts

end ProjectRun

namespace Settings

open ProjectRun

/-- The files of a project that a run takes, in its order. -/
def taken (s : Settings) (fs : FileSystem) (enabled : List Language) (rules : Ignore.Rules) : List Path :=
  ((s.walker enabled rules (fs.canonical s.root)).walk (fs.canonical s.root) (.start fs)).1

variable {s : Settings} {fs : FileSystem} {enabled : List Language} {rules : Ignore.Rules}

/-- A walk over a project extracts from the files that it takes. -/
theorem steps_of_takes {root directory : Path} {run last : ProjectRun} {ps : List Path}
    {fault : Option Fault}
    (h : (s.walker enabled rules root).Takes directory run ps last fault) :
    run.steps s.extraction enabled root ps = (last, fault) := by
  induction h with
  | done run => rfl
  | next _ _ hv _ ih =>
    have hstep : ProjectRun.step _ s.extraction enabled root _ = _ := hv
    rw [steps, hstep]
    exact ih
  | ended _ _ hv =>
    have hstep : ProjectRun.step _ s.extraction enabled root _ = _ := hv
    rw [steps, hstep]

theorem extractAll_eq (hl : Language.enable s.languages = .ok enabled)
    (hr : Ignore.Rules.load fs (fs.canonical s.root) s.ignore = .ok rules) :
    s.extractAll fs =
      (((ProjectRun.start fs).steps s.extraction enabled (fs.canonical s.root)
        (s.taken fs enabled rules)).1,
      ((ProjectRun.start fs).steps s.extraction enabled (fs.canonical s.root)
        (s.taken fs enabled rules)).2.map .fault) := by
  rw [extractAll, taken, steps_of_takes (Walker.takes_walk _ _ _)]
  simp only [hr, hl]

theorem steps_start_of_accounts {before : List Path} {vs : List Verdict} {mid : FileSystem}
    {root : Path} (ha : Accounts s.extraction enabled root fs before vs mid) (rest : List Path) :
    ∃ logs, (ProjectRun.start fs).steps s.extraction enabled root (before ++ rest) =
      (ProjectRun.mk mid logs (.ofVerdicts vs)).steps s.extraction enabled root rest :=
  (ProjectRun.start fs).steps_of_accounts ha (Tally.ofVerdicts_nil).symm rest

theorem extractAll_of_accounts {vs : List Verdict} {after : FileSystem}
    (hl : Language.enable s.languages = .ok enabled)
    (hr : Ignore.Rules.load fs (fs.canonical s.root) s.ignore = .ok rules)
    (ha : Accounts s.extraction enabled (fs.canonical s.root) fs (s.taken fs enabled rules) vs after) :
    ∃ logs, s.extractAll fs = (⟨after, logs, .ofVerdicts vs⟩, none) := by
  obtain ⟨logs, hs⟩ := steps_start_of_accounts ha []
  rw [List.append_nil] at hs
  exact ⟨logs, by rw [extractAll_eq hl hr, hs]; rfl⟩

theorem extractAll_of_escapes {before after : List Path} {p : Path} {vs : List Verdict}
    {mid : FileSystem} {fault : Fault} (hl : Language.enable s.languages = .ok enabled)
    (hr : Ignore.Rules.load fs (fs.canonical s.root) s.ignore = .ok rules)
    (hw : s.taken fs enabled rules = before ++ p :: after)
    (ha : Accounts s.extraction enabled (fs.canonical s.root) fs before vs mid)
    (he : Escapes s.extraction enabled (fs.canonical s.root) mid p fault) :
    ∃ run, s.extractAll fs = (run, some (.fault fault)) ∧ run.tally = .ofVerdicts vs := by
  obtain ⟨logs, hs⟩ := steps_start_of_accounts ha (p :: after)
  obtain ⟨stopped, hp, ht⟩ :=
    ProjectRun.step_of_escapes ⟨mid, logs, .ofVerdicts vs⟩ he
  refine ⟨stopped, ?_, ht⟩
  rw [extractAll_eq hl hr, hw, hs, ProjectRun.steps, hp]
  rfl

end Settings

section OneCall

/-- A program that is one call of the function for messages. -/
def callProgram (arguments : List Node) (stop : Nat) : Node :=
  ⟨"program", true, 0, stop + 1, [],
    [⟨"expression_statement", true, 0, stop + 1, [],
      [⟨"call_expression", true, 0, stop, [("function", 0), ("arguments", 1)],
        [.leaf "identifier" 0 17,
          ⟨"arguments", true, 17, stop, [],
            .token "(" 17 18 :: arguments ++ [.token ")" (stop - 1) stop]⟩]⟩,
        .token ";" stop (stop + 1)]⟩]⟩

def bareCall : File where
  bytes := (Utf8.encode? "formatIntlMessage();").getD []
  tree := some (callProgram [] 19, false)

/-- The call with a string of one byte that is no text. -/
def undecodableCall : File where
  bytes := (Utf8.encode? "formatIntlMessage('").getD [] ++ 0xff :: (Utf8.encode? "');").getD []
  tree := some (callProgram [⟨"string", true, 18, 21, [],
    [.token "'" 18 19, .leaf "string_fragment" 19 20,
      .token "'" 20 21]⟩] 22, false)

def projectRoot : Path := ⟨[CodePoint.slash], ["proj"]⟩

def callPath : Path := projectRoot.child "a.js"

def projectOf (f : File) : FileSystem := ⟨.directory [("proj", .directory [("a.js", .file f)])]⟩

def projectSettings : Settings := { Settings.standard with root := projectRoot }

def openedCall (f : File) : Extraction := ProjectRun.opened .standard projectRoot f callPath

def callPlace (f : File) : Place := ((openedCall f).source.places[2]?).getD default

def calleePlace (f : File) : Place := ((callPlace f).field? "function").getD default

theorem bareCall_visit : (openedCall bareCall).begin.visit (callPlace bareCall) =
    .error ((openedCall bareCall).source.complain (callPlace bareCall) .missingArgument)
      (openedCall bareCall).begin := by
  have hf : (callPlace bareCall).field? "function" = some (calleePlace bareCall) := by cbv
  have hm : (openedCall bareCall).begin.isMessageCall (calleePlace bareCall) = .ok true :=
    Extraction.isMessageCall_of_name (by cbv) (by cbv)
  have ha : Extraction.arguments (callPlace bareCall) = [] := by cbv
  have hv : (openedCall bareCall).begin.visit (callPlace bareCall) =
      (Extraction.visitCall (callPlace bareCall)).run (openedCall bareCall).begin :=
    Extraction.visit_of_recognizer (by cbv)
  rw [hv, Extraction.run_visitCall hf, hm]
  simp only [ha]
  rfl

theorem undecodableCall_visit :
    (openedCall undecodableCall).begin.visit (callPlace undecodableCall) =
      .error (.fault (.undecodable ⟨0, 1, 0xff, .badStart⟩)) (openedCall undecodableCall).begin := by
  have hf : (callPlace undecodableCall).field? "function" = some (calleePlace undecodableCall) := by
    cbv
  have hm : (openedCall undecodableCall).begin.isMessageCall (calleePlace undecodableCall) =
      .ok true :=
    Extraction.isMessageCall_of_name (by cbv) (by cbv)
  have hv : (openedCall undecodableCall).begin.visit (callPlace undecodableCall) =
      (Extraction.visitCall (callPlace undecodableCall)).run (openedCall undecodableCall).begin :=
    Extraction.visit_of_recognizer (by cbv)
  rw [hv, Extraction.run_visitCall hf, hm]
  cbv

theorem places_openedCall {f : File} (h : 2 < (openedCall f).source.places.length) :
    (openedCall f).source.places =
      (openedCall f).source.places.take 2 ++ callPlace f :: (openedCall f).source.places.drop 3 := by
  have hp : callPlace f = (openedCall f).source.places[2] := by
    rw [callPlace, List.getElem?_eq_getElem h, Option.getD_some]
  rw [hp, ← List.drop_eq_getElem_cons h, List.take_append_drop]

def projectRules (f : File) : Ignore.Rules :=
  (Ignore.Rules.load (projectOf f) projectRoot .standard).toOption.getD ⟨projectRoot, []⟩

theorem load_projectOf {f : File}
    (h : (Ignore.Rules.load (projectOf f) projectRoot .standard).toOption.isSome = true) :
    Ignore.Rules.load (projectOf f) projectRoot .standard = .ok (projectRules f) := by
  rw [projectRules]
  cases hl : Ignore.Rules.load (projectOf f) projectRoot .standard with
  | error e => simp [hl, Except.toOption] at h
  | ok rules => rfl

theorem visitAll_around_call {f : File} {x : Extraction}
    (h : ((openedCall f).source.places.take 2).map Place.kind = ["program", "expression_statement"]) :
    x.visitAll ((openedCall f).source.places.take 2) = (x, none) := by
  refine Extraction.visitAll_of_unrecognized ?_
  rw [h]
  rintro kind (_ | ⟨_, _ | ⟨_, ⟨⟩⟩⟩) <;> rfl

end OneCall

end MessageExtraction
