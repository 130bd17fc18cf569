import MessageExtraction.Proofs.Project.Catalogs

/-!
What runs add up to. A run over files that are named counts each of them once, and where no catalogs are
written it does with a file what it does with that file alone, so that runs over parts of a list make up
the run over the whole of it. A run over a project takes files of enabled languages only, and skips none.
-/

namespace MessageExtraction

namespace Tally

/-- The count of some files with that of others that come after them. -/
def append (t u : Tally) : Tally where
  processed := t.processed + u.processed
  skipped := t.skipped + u.skipped
  failed := t.failed + u.failed
  messages := t.messages + u.messages
  catalogs := t.catalogs + u.catalogs
  warnings := t.warnings + u.warnings
  errors := t.errors ++ u.errors
  results := t.results ++ u.results

instance : Append Tally := ⟨append⟩

variable (t u w : Tally)

theorem append_eq : t ++ u = t.append u := rfl

theorem append_empty : t ++ empty = t := by
  simp [append_eq, append, empty]

theorem append_assoc : t ++ u ++ w = t ++ (u ++ w) := by
  simp [append_eq, append, Nat.add_assoc]

theorem append_skip : (t ++ u).skip = t ++ u.skip := rfl

theorem append_fail (message : Text) : (t ++ u).fail message = t ++ u.fail message := by
  simp [append_eq, append, fail, Nat.add_assoc]

theorem append_add (r : FileResult) : (t ++ u).add r = t ++ u.add r := by
  simp [append_eq, append, add, Nat.add_assoc]

end Tally

namespace ProjectRun

variable {ε : Type} {options : Options} {enabled : List Language} {root cwd p : Path}
  {ps qs : List Path}

/-- What comes of a run when another one has come before it. -/
def after (earlier : ProjectRun) (later : ProjectRun × Option ε) : ProjectRun × Option ε :=
  (⟨later.1.files, earlier.logs ++ later.1.logs, earlier.tally ++ later.1.tally⟩, later.2)

/-- One run and then another, unless the first one has ended early. -/
def andThen (first second : ProjectRun × Option ε) : ProjectRun × Option ε :=
  match first with
  | (run, none) => run.after second
  | stopped => stopped

theorem after_start (run : ProjectRun) :
    run.after (start run.files, (none : Option ε)) = (run, none) := by
  simp [after, start, Tally.append_empty]

theorem after_after (run middle : ProjectRun) (later : ProjectRun × Option ε) :
    run.after (middle.after later) = (run.after (middle, (none : Option ε))).1.after later := by
  simp [after, Tally.append_assoc]

section Step

/-- A file adds to what has come of those before it what comes of it alone. -/
theorem extractFile_eq_after (run : ProjectRun) :
    run.extractFile options root p = run.after ((start run.files).extractFile options root p) := by
  rw [extractFile, extractFile]
  have hfiles : (start run.files).files = run.files := rfl
  have htally : run.tally = run.tally ++ (start run.files).tally := (Tally.append_empty _).symm
  cases hread : run.files.read p with
  | error e =>
    simp only [hfiles, hread, after]
    rw [← Tally.append_fail, ← htally]
    simp [start]
  | ok f =>
    simp only [hfiles, hread]
    rcases (Extraction.openSource (.ofFile f p.toText root) options).runOn run.files root with
      ⟨files, x, ((r | fault) | e) | r⟩
    · simp only [after]
      rw [← Tally.append_fail, ← htally]
      simp [start]
    · simp only [after]
      rw [← htally]
      simp [start]
    · simp only [after]
      rw [← Tally.append_fail, ← htally]
      simp [start]
    · simp only [after]
      rw [← Tally.append_add, ← htally]
      simp [start]

theorem step_eq_after (run : ProjectRun) :
    run.step options enabled root p = run.after ((start run.files).step options enabled root p) := by
  rw [step, step]
  cases Language.detect? enabled p with
  | none =>
    simp only [after]
    rw [← Tally.append_skip, start, Tally.append_empty]
    simp
  | some l => exact extractFile_eq_after run

theorem files_runOn {x : Extraction} (h : x.options.messagesDir = none) (fs : FileSystem) :
    (x.runOn fs cwd).1 = fs := by
  rw [Extraction.runOn]
  rcases htraverse : x.begin.traverse with ⟨ended, _ | e⟩
  · have hoptions : ended.options.messagesDir = none := by
      rw [(Extraction.grows_of_traverse htraverse).options, h]
    have hpath : ended.catalogPath? cwd = none := by
      rw [Extraction.catalogPath?, hoptions]
      simp
    simp only [Extraction.emit, Extraction.catalogPath?_begin, hpath]
  · rfl

theorem files_step (run : ProjectRun) (h : options.messagesDir = none) :
    (run.step options enabled root p).1.files = run.files := by
  cases hl : Language.detect? enabled p with
  | none =>
    rw [step, hl]
  | some l =>
    have hsome : (Language.detect? enabled p).isSome := by
      rw [hl]
      rfl
    cases hread : run.files.read p with
    | error e =>
      rw [step_of_enabled run hsome, extractFile, hread]
    | ok f =>
      rw [files_step_of_read run hsome hread]
      apply files_runOn
      rw [options_opened, h]

end Step

section Named

/-- What a run does with a file that is named. -/
def namedStep (run : ProjectRun) (options : Options) (enabled : List Language) (root cwd p : Path) :
    ProjectRun × Option Fault :=
  if run.files.contains (cwd.join p) then
    run.step options enabled root (run.files.canonical (cwd.join p))
  else ({ run with tally := run.tally.fail (p.toText ++ (": file not found" : Text)) }, none)

theorem namedSteps_cons (run : ProjectRun) :
    run.namedSteps options enabled root cwd (p :: ps) =
      match run.namedStep options enabled root cwd p with
      | (run, none) => run.namedSteps options enabled root cwd ps
      | stopped => stopped := by
  rw [namedStep]
  -- the recursion is unfolded by unification: its equations take long to make
  by_cases hthere : run.files.contains (cwd.join p) = true
  · rw [if_pos hthere]
    refine (if_pos hthere).trans ?_
    rcases run.step options enabled root (run.files.canonical (cwd.join p)) with ⟨next, _ | fault⟩ <;>
      rfl
  · rw [if_neg hthere]
    exact if_neg hthere

theorem namedStep_eq_after (run : ProjectRun) :
    run.namedStep options enabled root cwd p =
      run.after ((start run.files).namedStep options enabled root cwd p) := by
  have hfiles : (start run.files).files = run.files := rfl
  rw [namedStep, namedStep, hfiles]
  split
  · exact step_eq_after run
  · simp only [after]
    rw [← Tally.append_fail, start, Tally.append_empty]
    simp

theorem files_namedStep (run : ProjectRun) (h : options.messagesDir = none) :
    (run.namedStep options enabled root cwd p).1.files = run.files := by
  rw [namedStep]
  split
  · exact files_step run h
  · rfl

theorem namedSteps_eq_after (run : ProjectRun) :
    run.namedSteps options enabled root cwd ps =
      run.after ((start run.files).namedSteps options enabled root cwd ps) := by
  induction ps generalizing run with
  | nil => exact (after_start run).symm
  | cons p ps ih =>
    rw [namedSteps_cons, namedSteps_cons, namedStep_eq_after run]
    rcases (start run.files).namedStep options enabled root cwd p with ⟨next, _ | fault⟩
    · simp only [after]
      rw [ih, ih next]
      exact (after_after run next _).symm
    · rfl

theorem namedSteps_append (run : ProjectRun) :
    run.namedSteps options enabled root cwd (ps ++ qs) =
      match run.namedSteps options enabled root cwd ps with
      | (run, none) => run.namedSteps options enabled root cwd qs
      | stopped => stopped := by
  induction ps generalizing run with
  | nil => rfl
  | cons p ps ih =>
    rw [List.cons_append, namedSteps_cons, namedSteps_cons]
    rcases run.namedStep options enabled root cwd p with ⟨next, _ | fault⟩
    · exact ih next
    · rfl

theorem files_namedSteps (run : ProjectRun) (h : options.messagesDir = none) :
    (run.namedSteps options enabled root cwd ps).1.files = run.files := by
  induction ps generalizing run with
  | nil => rfl
  | cons p ps ih =>
    have hstep : (run.namedStep options enabled root cwd p).1.files = run.files := files_namedStep run h
    rw [namedSteps_cons]
    rcases hnext : run.namedStep options enabled root cwd p with ⟨next, _ | fault⟩
    · rw [hnext] at hstep
      exact (ih next).trans hstep
    · rw [hnext] at hstep
      exact hstep

/-- Where no catalogs are written, no file finds anything changed by those before it. -/
theorem namedSteps_start_append (h : options.messagesDir = none) (fs : FileSystem) :
    (start fs).namedSteps options enabled root cwd (ps ++ qs) =
      andThen ((start fs).namedSteps options enabled root cwd ps)
        ((start fs).namedSteps options enabled root cwd qs) := by
  have hfiles : ((start fs).namedSteps options enabled root cwd ps).1.files = fs :=
    files_namedSteps (start fs) h
  rw [namedSteps_append]
  rcases hfirst : (start fs).namedSteps options enabled root cwd ps with ⟨run, _ | fault⟩
  · rw [hfirst] at hfiles
    simp only [andThen]
    rw [namedSteps_eq_after run, hfiles]
  · rfl

end Named

section NamedVerdicts

variable (options : Options) (enabled : List Language) (root cwd : Path)

/-- From files as they are, a file that is named ends with a verdict: it fails if it is not there. -/
inductive NamedEnds (fs : FileSystem) (p : Path) : Verdict → FileSystem → Prop
  | absent : fs.contains (cwd.join p) = false →
      NamedEnds fs p (.failed (p.toText ++ (": file not found" : Text))) fs
  | present {v : Verdict} {after : FileSystem} : fs.contains (cwd.join p) = true →
      Ends options enabled root fs (fs.canonical (cwd.join p)) v after → NamedEnds fs p v after

/-- Files that are named end each with its verdict, in the order of their names. -/
inductive NamedAccounts : FileSystem → List Path → List Verdict → FileSystem → Prop
  | nil (fs : FileSystem) : NamedAccounts fs [] [] fs
  | cons {fs mid after : FileSystem} {p : Path} {v : Verdict} {ps : List Path} {vs : List Verdict} :
      NamedEnds options enabled root cwd fs p v mid → NamedAccounts mid ps vs after →
      NamedAccounts fs (p :: ps) (v :: vs) after

variable {options enabled root cwd} {run next : ProjectRun}

theorem NamedAccounts.length_eq {fs after : FileSystem} {ps : List Path} {vs : List Verdict}
    (h : NamedAccounts options enabled root cwd fs ps vs after) : vs.length = ps.length := by
  induction h with
  | nil => rfl
  | cons _ _ ih => rw [List.length_cons, List.length_cons, ih]

theorem namedEnds_of_namedStep {p : Path}
    (h : run.namedStep options enabled root cwd p = (next, none)) :
    ∃ v, NamedEnds options enabled root cwd run.files p v next.files ∧
      next.tally = run.tally.count v := by
  rw [namedStep] at h
  split at h
  · rename_i hthere
    obtain ⟨v, hends, htally⟩ := ends_of_step h
    exact ⟨v, .present hthere hends, htally⟩
  · rename_i hthere
    obtain ⟨rfl, -⟩ := Prod.mk.inj h
    exact ⟨_, .absent (Bool.eq_false_iff.mpr hthere), rfl⟩

/-- A run over files that are named, if it comes to its end, has counted the verdict of each. -/
theorem namedAccounts_of_namedSteps {ps : List Path} {vs₀ : List Verdict}
    (h : run.namedSteps options enabled root cwd ps = (next, none))
    (ht : run.tally = .ofVerdicts vs₀) :
    ∃ vs, NamedAccounts options enabled root cwd run.files ps vs next.files ∧
      next.tally = .ofVerdicts (vs₀ ++ vs) := by
  induction ps generalizing run vs₀ with
  | nil =>
    obtain ⟨rfl, -⟩ := Prod.mk.inj h
    exact ⟨[], .nil _, by rw [List.append_nil, ht]⟩
  | cons p ps ih =>
    rw [namedSteps_cons] at h
    rcases hstep : run.namedStep options enabled root cwd p with ⟨mid, _ | fault⟩
    · rw [hstep] at h
      obtain ⟨v, hends, hcount⟩ := namedEnds_of_namedStep hstep
      rw [ht, ← Tally.ofVerdicts_concat] at hcount
      obtain ⟨vs, haccounts, htally⟩ := ih h hcount
      refine ⟨v :: vs, .cons hends haccounts, ?_⟩
      rw [htally, List.append_assoc, List.singleton_append]
    · rw [hstep] at h
      cases h

end NamedVerdicts

section Skipping

theorem skipped_extractFile (run : ProjectRun) :
    (run.extractFile options root p).1.tally.skipped = run.tally.skipped := by
  rw [extractFile]
  cases run.files.read p with
  | error e => rfl
  | ok f =>
    simp only
    rcases (Extraction.openSource (.ofFile f p.toText root) options).runOn run.files root with
      ⟨files, x, ((r | fault) | e) | r⟩ <;> rfl

end Skipping

end ProjectRun

namespace Language

theorem ofName?_eq_some_iff {t : Text} {l : Language} : ofName? t = some l ↔ l.name = t := by
  constructor
  · intro h
    simpa using List.find?_some h
  · rintro rfl
    cases l <;> decide

/-- A language is enabled exactly when it is named. -/
theorem mem_enable_iff {names : List Text} {enabled : List Language} (h : enable names = .ok enabled)
    (l : Language) : l ∈ enabled ↔ l.name ∈ names := by
  have hfold (languages seen : List Language) :
      l ∈ languages.foldl (fun seen l ↦ if seen.contains l then seen else seen ++ [l]) seen ↔
        l ∈ seen ∨ l ∈ languages := by
    induction languages generalizing seen with
    | nil => simp
    | cons k languages ih =>
      rw [List.foldl_cons, ih]
      split
      · rename_i hk
        rw [List.contains_iff_mem] at hk
        rw [List.mem_cons, ← or_assoc]
        apply or_congr_left
        constructor
        · exact .inl
        · rintro (hl | rfl)
          · exact hl
          · exact hk
      · simp [or_assoc]
  rw [enable] at h
  obtain ⟨languages, hlanguages, h⟩ := bind_eq_ok.mp h
  rw [← pure_eq_ok.mp h, hfold, mem_of_mapM_iff hlanguages]
  constructor
  · rintro (hl | ⟨name, hname, hl⟩)
    · cases hl
    · split at hl
      · rename_i k hk
        rw [← Except.ok.inj hl, ofName?_eq_some_iff.mp hk]
        exact hname
      · cases hl
  · intro hl
    apply Or.inr
    exact ⟨l.name, hl, by rw [ofName?_eq_some_iff.mpr rfl]⟩

end Language

namespace Settings

open ProjectRun

variable {s : Settings} {fs : FileSystem}

/-- The files that are taken for their language are those that are read in an enabled one. -/
theorem detect?_of_takes {enabled : List Language} {rules : Ignore.Rules} {p : Path}
    (hl : Language.enable s.languages = .ok enabled) (h : fs.takes (s.sieve fs rules) p = true) :
    (Language.detect? enabled p).isSome := by
  simp only [FileSystem.takes, Bool.and_eq_true, Sieve.wants, sieve, Option.all_some,
    List.contains_iff_mem, List.mem_map] at h
  obtain ⟨-, name, hname, hlanguage⟩ := h
  obtain ⟨l, hdetected, rfl⟩ := Option.map_eq_some_iff.mp hlanguage.symm
  have henabled : l ∈ enabled := (Language.mem_enable_iff hl l).mpr hname
  rw [Language.detect?, hdetected]
  simpa using henabled

theorem skipped_extractAll (s : Settings) (fs : FileSystem) :
    (s.extractAll fs).1.tally.skipped = 0 := by
  rw [extractAll]
  cases Ignore.Rules.load fs (fs.canonical s.root) s.ignore with
  | error e => rfl
  | ok rules =>
    cases hl : Language.enable s.languages with
    | error e => rfl
    | ok enabled =>
      refine (Walker.takes_walk (s.walker enabled rules (fs.canonical s.root)) (fs.canonical s.root)
        (.start fs)).keeps (P := fun run ↦ run.tally.skipped = 0) (fun run p hrun _ htakes ↦ ?_) rfl
      have hstep : (s.walker enabled rules (fs.canonical s.root)).visit run p =
          run.extractFile s.extraction (fs.canonical s.root) p :=
        step_of_enabled run (detect?_of_takes hl htakes)
      rw [hstep, skipped_extractFile, hrun]

theorem extractNamed_append (hd : s.extraction.messagesDir = none) (cwd : Path)
    (ps qs : List Path) :
    s.extractNamed fs cwd (ps ++ qs) = andThen (s.extractNamed fs cwd ps) (s.extractNamed fs cwd qs) := by
  rw [extractNamed, extractNamed, extractNamed]
  cases Language.enable s.languages with
  | error e => rfl
  | ok enabled =>
    simp only
    rw [namedSteps_start_append hd]
    rcases (start fs).namedSteps s.extraction enabled s.root cwd ps with ⟨run, _ | fault⟩ <;> rfl

/-- A run over files that are named, if it comes to its end, has counted each of them once, in their
order, and its totals are those of what it has counted. Where no catalogs are written, the run over two
lists after each other is the run over the one and then that over the other. A run over a project skips
nothing. -/
theorem named_runs_add_up (s : Settings) (fs : FileSystem) (cwd : Path) (paths : List Path) :
    (∀ run, s.extractNamed fs cwd paths = (run, none) →
      ∃ enabled verdicts, Language.enable s.languages = .ok enabled ∧
        NamedAccounts s.extraction enabled s.root cwd fs paths verdicts run.files ∧
        run.tally.results = verdicts.filterMap Verdict.result? ∧
        run.tally.errors = verdicts.filterMap Verdict.error? ∧
        run.tally.processed + run.tally.skipped + run.tally.failed = paths.length ∧
        run.tally.failed = run.tally.errors.length ∧
        run.tally.processed = run.tally.results.length ∧
        run.tally.messages = (run.tally.results.map fun r ↦ r.messages.length).sum ∧
        run.tally.warnings = (run.tally.results.map fun r ↦ r.warnings.length).sum ∧
        run.tally.catalogs = run.tally.results.countP fun r ↦ r.output.isSome) ∧
    (s.extraction.messagesDir = none → ∀ before after, paths = before ++ after →
      s.extractNamed fs cwd paths =
        andThen (s.extractNamed fs cwd before) (s.extractNamed fs cwd after)) ∧
    (s.extractAll fs).1.tally.skipped = 0 := by
  refine ⟨?_, ?_, skipped_extractAll s fs⟩
  · intro run hrun
    rw [extractNamed] at hrun
    cases hl : Language.enable s.languages with
    | error e => simp [hl] at hrun
    | ok enabled =>
      simp only [hl] at hrun
      obtain ⟨hrun, hfault⟩ := Prod.mk.inj hrun
      have hsteps : (start fs).namedSteps s.extraction enabled s.root cwd paths = (run, none) :=
        Prod.ext hrun (Option.map_eq_none_iff.mp hfault)
      obtain ⟨verdicts, haccounts, htally⟩ :=
        namedAccounts_of_namedSteps hsteps Tally.ofVerdicts_nil.symm
      rw [List.nil_append] at htally
      refine ⟨enabled, verdicts, rfl, haccounts, ?_⟩
      rw [htally, Tally.total_ofVerdicts, haccounts.length_eq]
      exact ⟨rfl, rfl, rfl, rfl, rfl, rfl, rfl, rfl⟩
  · rintro hd before after rfl
    exact extractNamed_append hd cwd before after

end Settings

section NamedCalls

def namedCalls : List Path := [⟨[], ["a.js"]⟩, ⟨[], ["b.js"]⟩]

/-- A file that is rejected and one that is not there both count, and so do they when each is named
alone. -/
theorem namedCalls_add_up : ∃ run,
    projectSettings.extractNamed (projectOf bareCall) projectRoot namedCalls = (run, none) ∧
    run.tally.processed + run.tally.skipped + run.tally.failed = 2 ∧
    projectSettings.extractNamed (projectOf bareCall) projectRoot namedCalls =
      ProjectRun.andThen
        (projectSettings.extractNamed (projectOf bareCall) projectRoot (namedCalls.take 1))
        (projectSettings.extractNamed (projectOf bareCall) projectRoot (namedCalls.drop 1)) := by
  have hend : (projectSettings.extractNamed (projectOf bareCall) projectRoot namedCalls).2 = none := by
    decide +kernel
  obtain ⟨htotal, hparts, -⟩ :=
    Settings.named_runs_add_up projectSettings (projectOf bareCall) projectRoot namedCalls
  obtain ⟨enabled, verdicts, -, -, -, -, hcount, -⟩ := htotal _ (Prod.ext rfl hend)
  exact ⟨_, Prod.ext rfl hend, hcount, hparts rfl _ _ (List.take_append_drop 1 namedCalls).symm⟩

end NamedCalls

end MessageExtraction
