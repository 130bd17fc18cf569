import MessageExtraction.Proofs.Project.Totals

/-!
When a run over a project counts every file that it takes. Each file is counted in its turn, unless it
escapes: then the run is over with it.
-/

namespace MessageExtraction

namespace Settings

open ProjectRun FileSystem

/-- Where no catalogs are written, a run visits the files that a walk finds at its start. -/
theorem visits_walk_of_messagesDir_eq_none {s : Settings} {fs : FileSystem} (hfs : fs.IsProper)
    (hd : fs.IsDistinct) (hroot : ∀ t ∈ s.root.segments, Path.IsSegment t)
    (hm : s.extraction.messagesDir = none) (enabled : List Language) (rules : Ignore.Rules) :
    (s.walker enabled rules (fs.canonical s.root)).walk (fs.canonical s.root) (.start fs) =
      Stretch.inTurn ((s.walked fs rules).map (s.walker enabled rules (fs.canonical s.root)).visitOnly)
        (.start fs) := by
  refine Walker.visits_walk_of_unchanged hd (fun run p next hrun hvisit ↦ ?_) hfs
    (isSegment_canonical hfs hroot) rfl
  have hstep : run.step s.extraction enabled (fs.canonical s.root) p = (next, none) := hvisit
  have hkept : (run.step s.extraction enabled (fs.canonical s.root) p).1.files = run.files :=
    files_step run hm
  rw [hstep] at hkept
  exact hkept.trans hrun

/-- Over a project whose languages are known, the run comes to its end with every file that it takes
counted once, as processed, skipped or failed and with the error of each failed one, exactly when its
ignore rules can be read and no file escapes in its turn. The first one that does ends the run with its
fault, and only the files before it are counted. Without links, or where no catalogs are written, the files
that are taken are those that a walk finds at the start of the run: all of them, if it comes to its end,
and else the first ones. -/
theorem counts_every_file_iff (s : Settings) (fs : FileSystem) (enabled : List Language)
    (hl : Language.enable s.languages = .ok enabled) :
    ((∃ rules verdicts run,
        Ignore.Rules.load fs (fs.canonical s.root) s.ignore = .ok rules ∧
        s.extractAll fs = (run, none) ∧
        Accounts s.extraction enabled (fs.canonical s.root) fs (s.taken fs enabled rules) verdicts
          run.files ∧
        run.tally = .ofVerdicts verdicts ∧
        run.tally.processed + run.tally.skipped + run.tally.failed = (s.taken fs enabled rules).length) ↔
      ∃ rules, Ignore.Rules.load fs (fs.canonical s.root) s.ignore = .ok rules ∧
        ∀ before p after vs mid fault, s.taken fs enabled rules = before ++ p :: after →
          Accounts s.extraction enabled (fs.canonical s.root) fs before vs mid →
          ¬Escapes s.extraction enabled (fs.canonical s.root) mid p fault) ∧
    (∀ rules before p after vs mid fault,
      Ignore.Rules.load fs (fs.canonical s.root) s.ignore = .ok rules →
      s.taken fs enabled rules = before ++ p :: after →
      Accounts s.extraction enabled (fs.canonical s.root) fs before vs mid →
      Escapes s.extraction enabled (fs.canonical s.root) mid p fault →
      ∃ run, s.extractAll fs = (run, some (.fault fault)) ∧ run.tally = .ofVerdicts vs) ∧
    (fs.IsProper → fs.IsDistinct → (fs.IsLinkless ∨ s.extraction.messagesDir = none ∧
        ∀ t ∈ s.root.segments, Path.IsSegment t) → ∀ rules,
      Ignore.Rules.load fs (fs.canonical s.root) s.ignore = .ok rules →
      s.taken fs enabled rules <+: s.walked fs rules ∧
        ((s.extractAll fs).2 = none → s.taken fs enabled rules = s.walked fs rules)) := by
  refine ⟨⟨?_, ?_⟩, fun rules before p after vs mid fault ↦ extractAll_of_escapes hl, ?_⟩
  · rintro ⟨rules, verdicts, run, hr, hrun, -, -, -⟩
    refine ⟨rules, hr, fun before p after vs mid fault hw ha he ↦ ?_⟩
    obtain ⟨stopped, hstopped, -⟩ := extractAll_of_escapes hl hr hw ha he
    rw [hrun] at hstopped
    cases hstopped
  · rintro ⟨rules, hr, hnone⟩
    obtain ⟨vs, after, ha⟩ | ⟨before, p, after, vs, mid, fault, hw, ha, he⟩ :=
      accounts_or_escapes s.extraction enabled (fs.canonical s.root) fs
        (s.taken fs enabled rules)
    · obtain ⟨logs, hrun⟩ := extractAll_of_accounts hl hr ha
      refine ⟨rules, vs, _, hr, hrun, ha, rfl, ?_⟩
      rw [Tally.total_ofVerdicts, ha.length_eq]
    · exact absurd he (hnone before p after vs mid fault hw ha)
  · rintro hfs hd (hlinks | ⟨hm, hroot⟩) rules hr
    · exact taken_of_visits (visits_walk hfs.isStepless hd hlinks s enabled rules _) hl hr
    · exact taken_of_visits (visits_walk_of_messagesDir_eq_none hfs hd hroot hm enabled rules) hl hr

end Settings

section OneCall

theorem undecodableCall_escapes : ProjectRun.Escapes .standard Language.all projectRoot
    (projectOf undecodableCall) callPath (.undecodable ⟨0, 1, 0xff, .badStart⟩) := by
  refine ⟨by decide +kernel, undecodableCall, rfl, ?_⟩
  exact .visiting (places_openedCall (by cbv)) (visitAll_around_call (by cbv)) undecodableCall_visit

theorem bareCall_not_escapes (fault : Fault) :
    ¬ProjectRun.Escapes .standard Language.all projectRoot (projectOf bareCall) callPath fault := by
  rintro ⟨-, f, hf, h⟩
  obtain rfl : bareCall = f := Except.ok.inj hf
  have hv : ((openedCall bareCall).begin.visitAll (openedCall bareCall).source.places).2 =
      some ((openedCall bareCall).source.complain (callPlace bareCall) .missingArgument) :=
    Extraction.visitAll_eq_failure_iff.mpr
      ⟨_, _, _, _, _, places_openedCall (by cbv), visitAll_around_call (by cbv), bareCall_visit⟩
  exact absurd (h.eq_of_visitAll hv) (by simp [Source.complain])

/-- A file that is rejected counts as failed, and the run goes on to its end. -/
theorem bareCall_counted : Language.enable projectSettings.languages = .ok Language.all ∧
    ∃ run, projectSettings.extractAll (projectOf bareCall) = (run, none) ∧
      run.tally.processed + run.tally.skipped + run.tally.failed = 1 := by
  have hl : Language.enable projectSettings.languages = .ok Language.all := by cbv
  have hc : (projectOf bareCall).canonical projectSettings.root = projectRoot := by decide +kernel
  have hr : Ignore.Rules.load (projectOf bareCall) projectRoot projectSettings.ignore =
      .ok (projectRules bareCall) := load_projectOf (by decide +kernel)
  have hw : projectSettings.taken (projectOf bareCall) Language.all (projectRules bareCall) = [callPath] := by
    decide +kernel
  obtain ⟨rules, verdicts, run, hr', hrun, -, -, ht⟩ :=
    (Settings.counts_every_file_iff projectSettings (projectOf bareCall) Language.all hl).1.mpr (by
      refine ⟨projectRules bareCall, by rw [hc]; exact hr, fun before p after vs mid f h ha ↦ ?_⟩
      rw [hw] at h
      obtain ⟨rfl, rfl, rfl⟩ : before = [] ∧ p = callPath ∧ after = [] := by
        cases before <;> simp_all
      cases ha
      rw [hc]
      exact bareCall_not_escapes f)
  rw [hc, hr] at hr'
  cases hr'
  exact ⟨hl, run, hrun, by rw [ht, hw]; rfl⟩

/-- A string of a byte that is no text ends the run: the file that it stands in is walked and counts
as nothing. -/
theorem undecodableCall_uncounted : ∃ run,
    projectSettings.extractAll (projectOf undecodableCall) =
      (run, some (.fault (.undecodable ⟨0, 1, 0xff, .badStart⟩))) ∧
    projectSettings.taken (projectOf undecodableCall) Language.all (projectRules undecodableCall) =
      [callPath] ∧
    run.tally.processed + run.tally.skipped + run.tally.failed = 0 := by
  have hl : Language.enable projectSettings.languages = .ok Language.all := by cbv
  have hc : (projectOf undecodableCall).canonical projectSettings.root = projectRoot := by
    decide +kernel
  have hr : Ignore.Rules.load (projectOf undecodableCall) projectRoot projectSettings.ignore =
      .ok (projectRules undecodableCall) := load_projectOf (by decide +kernel)
  have hw : projectSettings.taken (projectOf undecodableCall) Language.all (projectRules undecodableCall) =
      [] ++ callPath :: [] := by
    decide +kernel
  obtain ⟨run, hrun, ht⟩ := Settings.extractAll_of_escapes hl (by rw [hc]; exact hr) hw (.nil _)
    (by rw [hc]; exact undecodableCall_escapes)
  exact ⟨run, hrun, hw, by rw [ht]; rfl⟩

end OneCall

end MessageExtraction
