import MessageExtraction.Proofs.FileSystem.Directories
import MessageExtraction.Proofs.Project.Catalogs

/-!
A run over the files that a run has left. It walks the same files and comes out of each of them as the
first did, and at its end all files are as they were, catalogs that were written over in between too. It
can differ in two ways: the making of a directory that has stumbled in the first run says otherwise in the
second what was in its way; and a directory that was made under the name of an ignore file keeps the
second run from beginning.
-/

namespace MessageExtraction

namespace FileSystem

variable {fs mid last again : FileSystem} {root name : Text} {names : List Text}
  {messages : List Message}

/-- Files on the way of a second run, by the files on the way of the first and those it left at last: each
stands as it was left, or as the first run has it by now. -/
structure Reruns (fs last again : FileSystem) : Prop where
  added : last.AddsCatalogs again
  face : ∀ q, again.face? q = last.face? q ∨
    ∃ f, fs.face? q = some (.file f) ∧ again.face? q = some (.file f)

theorem Reruns.start (fs last : FileSystem) : Reruns fs last last where
  added := .refl last
  face _ := .inl rfl

theorem Reruns.face?_eq (h : Reruns last last again) : again.face? = last.face? := by
  funext q
  obtain hq | ⟨f, hf, hq⟩ := h.face q
  · exact hq
  · rw [hq, hf]

theorem AddsDirectories.file (h : fs.AddsDirectories mid) {q : List Text} {f : File}
    (hf : fs.face? q = some (.file f)) : mid.face? q = some (.file f) := by
  obtain hq | ⟨hnone, -⟩ := h q
  · rw [hq, hf]
  · rw [hnone] at hf
    cases hf

theorem Reruns.of_addsDirectories (h : Reruns fs last again) (hadds : fs.AddsDirectories mid) :
    Reruns mid last again where
  added := h.added
  face q := (h.face q).imp_right fun ⟨f, hf, hq⟩ ↦ ⟨f, hadds.file hf, hq⟩

/-- A file that both runs write is written alike. -/
theorem Reruns.of_set (h : Reruns fs last again) {above : List Text} {f : File}
    (htakes : fs.TakesFile (above ++ [name])) (htakes' : again.TakesFile (above ++ [name]))
    (hname : Path.IsCatalogName name) :
    Reruns (fs.set (above ++ [name]) (.file f)) last (again.set (above ++ [name]) (.file f)) where
  added := h.added.trans (htakes'.addsCatalogs hname f)
  face q := by
    rw [htakes.face?_set, htakes'.face?_set]
    by_cases hq : q = above ++ [name]
    · rw [hq, Function.update_self, Function.update_self]
      exact .inr ⟨f, rfl, rfl⟩
    · rw [Function.update_of_ne hq, Function.update_of_ne hq]
      exact h.face q

theorem writeCatalog_of_error {made : FileSystem} {e : FileError}
    (h : fs.makeDirectories ⟨root, names⟩ = (made, .error e)) :
    fs.writeCatalog messages ⟨root, names ++ [name]⟩ = (made, .error (.file e)) := by
  rw [writeCatalog, Path.parent_concat, h]

theorem writeCatalog_of_fault {made : FileSystem}
    (h : fs.makeDirectories ⟨root, names⟩ = (made, .ok ())) {f : Fault}
    (hdump : Message.dump messages = .error f) :
    fs.writeCatalog messages ⟨root, names ++ [name]⟩ = (made, .error (.fault f)) := by
  rw [writeCatalog, Path.parent_concat]
  simp only [h, hdump]

theorem writeCatalog_of_ok {made : FileSystem} (h : fs.makeDirectories ⟨root, names⟩ = (made, .ok ()))
    {t : Text} (hdump : Message.dump messages = .ok t) :
    fs.writeCatalog messages ⟨root, names ++ [name]⟩ =
      made.writeText ⟨root, names ++ [name]⟩ t none := by
  rw [writeCatalog, Path.parent_concat]
  simp only [h, hdump]

theorem extends_writeText (fs : FileSystem) {p : Path} (hp : p.segments ≠ []) (t : Text)
    (data : Option Json) : fs.Extends (fs.writeText p t data).1 := by
  rw [writeText]
  cases hwritable : fs.writable p with
  | error e => exact .refl fs
  | ok place =>
    have htakes := takesFile_of_writable hp hwritable
    cases Utf8.encode? t <;> exact htakes.extends_set

/-- A text is written again to the place that it was written to, or fails again. -/
theorem writeText_again {made : FileSystem} {t : Text} {result : Except WriteError Unit}
    (hl : made.IsLinkless) (hd : made.LeadsToDirectory names) (hdots : name ≠ Path.dotDot)
    (hname : Path.IsCatalogName name)
    (hw : made.writeText ⟨root, names ++ [name]⟩ t none = (mid, result))
    (hfault : ∀ f, result ≠ .error (.fault f)) (hlast : mid.Extends last)
    (h : Reruns made last again) :
    ∃ next, again.writeText ⟨root, names ++ [name]⟩ t none = (next, result) ∧ Reruns mid last next := by
  rw [writeText] at hw
  cases hwritable : made.writable ⟨root, names ++ [name]⟩ with
  | error e =>
    simp only [hwritable] at hw
    cases hw
    have hagain := writable_again_of_error hl hd hdots (hlast.trans h.added.toExtends) hwritable
    exact ⟨again, by rw [writeText, hagain], h⟩
  | ok place =>
    simp only [hwritable] at hw
    cases hbytes : Utf8.encode? t with
    | none =>
      simp only [hbytes] at hw
      cases hw
      exact absurd rfl (hfault _)
    | some bytes =>
      simp only [hbytes] at hw
      cases hw
      obtain ⟨above, rfl⟩ :=
        last_of_advance hdots (hl.resolve_eq_ok_iff.mp (resolve_of_writable hwritable))
      have htakes := takesFile_of_writable (by simp) hwritable
      have hext := hlast.trans h.added.toExtends
      obtain ⟨f, hf⟩ := hext.file _ _ (by rw [htakes.face?_set, Function.update_self])
      have hagain := writable_again (htakes.extends_set.trans hext) hwritable hf
      refine ⟨again.set (above ++ [name]) (.file ⟨bytes, none, none⟩), ?_, ?_⟩
      · rw [writeText, hagain]
        simp only [hbytes]
      · exact h.of_set htakes (takesFile_of_writable (by simp) hagain) hname

/-- A catalog of the first run is written again, or fails again; only of directories that have stumbled
another failure is told. -/
theorem writeCatalog_again {result : Except WriteError Unit} (hl : fs.IsLinkless)
    (htop : fs.face? [] = some .directory) (hdots : name ≠ Path.dotDot)
    (hname : Path.IsCatalogName name)
    (hw : fs.writeCatalog messages ⟨root, names ++ [name]⟩ = (mid, result))
    (hfault : ∀ f, result ≠ .error (.fault f)) (hlast : mid.Extends last)
    (h : Reruns fs last again) :
    ∃ next result', again.writeCatalog messages ⟨root, names ++ [name]⟩ = (next, result') ∧
      Reruns mid last next ∧
      (result' = result ∧ ¬fs.Stumbles ⟨root, names⟩ ∨ fs.Stumbles ⟨root, names⟩ ∧
        ∃ q, result = .error (.file ⟨.present, q⟩) ∧
          result' = .error (.file ⟨.notDirectory, ⟨root, names⟩⟩)) := by
  have hadds := fs.addsDirectories_makeDirectories ⟨root, names⟩
  rcases hmade : fs.makeDirectories ⟨root, names⟩ with ⟨made, e | ⟨⟩⟩
  · rw [hmade] at hadds
    rw [writeCatalog_of_error hmade] at hw
    cases hw
    obtain ⟨hagain, hno⟩ | ⟨hstumbles, q, hq, hagain⟩ :=
      makeDirectories_again hl htop hmade (hlast.trans h.added.toExtends)
    · exact ⟨again, _, writeCatalog_of_error hagain, h.of_addsDirectories hadds, .inl ⟨rfl, hno⟩⟩
    · cases hq
      exact ⟨again, _, writeCatalog_of_error hagain, h.of_addsDirectories hadds,
        .inr ⟨hstumbles, q, rfl, rfl⟩⟩
  · rw [hmade] at hadds
    cases hdump : Message.dump messages with
    | error f =>
      rw [writeCatalog_of_fault hmade hdump] at hw
      cases hw
      exact absurd rfl (hfault f)
    | ok t =>
      rw [writeCatalog_of_ok hmade hdump] at hw
      have hd : made.LeadsToDirectory names := by
        cases makes_makeDirectories hl htop hmade with
        | made hd => exact hd
      have hl' := hl.of_extends hadds.extends
      obtain ⟨next, hnext, hreruns⟩ :=
        writeText_again hl' hd hdots hname hw hfault hlast (h.of_addsDirectories hadds)
      have hext : made.Extends again := by
        have hmid := made.extends_writeText (p := ⟨root, names ++ [name]⟩) (by simp) t none
        rw [hw] at hmid
        exact hmid.trans (hlast.trans h.added.toExtends)
      obtain ⟨hagain, hno⟩ | ⟨-, _, hq, -⟩ := makeDirectories_again hl htop hmade hext
      · refine ⟨next, result, ?_, hreruns, .inl ⟨rfl, hno⟩⟩
        rw [writeCatalog_of_ok hagain hdump, hnext]
      · cases hq

end FileSystem

namespace Extraction

open FileSystem

variable {x ended : Extraction} {fs last again : FileSystem} {cwd c : Path}

/-- The directory for the catalog of a file cannot be made, and another path is said to be at fault. -/
def Stumbles (x : Extraction) (fs : FileSystem) (cwd : Path) : Prop :=
  ∃ ended c, x.begin.traverse = (ended, none) ∧ ended.catalogPath? cwd = some c ∧ fs.Stumbles c.parent

/-- What comes out of a file whose catalog was written, or was not. -/
def outcome (ended : Extraction) (c : Path) : Except WriteError Unit → Except FileFailure FileResult
  | .error e => .error e.toFailure
  | .ok () => .ok (ended.result (some c))

theorem runOn_of_catalogPath? (ht : x.begin.traverse = (ended, none))
    (hc : ended.catalogPath? cwd = some c) (fs : FileSystem) :
    ∃ y, x.runOn fs cwd = ((fs.writeCatalog ended.messages c).1, y,
      ended.outcome c (fs.writeCatalog ended.messages c).2) := by
  have hb : ended.begin.messages = ended.messages := rfl
  rw [runOn, ht]
  simp only [emit, catalogPath?_begin, hc, hb]
  rcases fs.writeCatalog ended.messages c with ⟨after, e | ⟨⟩⟩ <;> exact ⟨_, rfl⟩

/-- A file that the first run came out of comes out the same again, unless its directories have stumbled:
then it is told that they are in the way of another path. -/
theorem runOn_again {mid : FileSystem} {y : Extraction} {r : Except FileFailure FileResult}
    (hl : fs.IsLinkless) (htop : fs.face? [] = some .directory) (hr : x.runOn fs cwd = (mid, y, r))
    (hfault : ∀ f, r ≠ .error (.source (.fault f))) (hlast : mid.Extends last)
    (h : Reruns fs last again) :
    ∃ next y' r', x.runOn again cwd = (next, y', r') ∧ Reruns mid last next ∧
      (r' = r ∧ ¬x.Stumbles fs cwd ∨ x.Stumbles fs cwd ∧
        ∃ q q', r = .error (.file ⟨.present, q⟩) ∧ r' = .error (.file ⟨.notDirectory, q'⟩)) := by
  rcases ht : x.begin.traverse with ⟨ended, _ | e⟩
  · cases hc : ended.catalogPath? cwd with
    | none =>
      have hrun (fs : FileSystem) :
          x.runOn fs cwd = (fs, ended.begin.logExtracted, .ok (ended.begin.result none)) := by
        rw [runOn, ht]
        simp only [emit, catalogPath?_begin, hc]
      rw [hrun] at hr
      cases hr
      refine ⟨_, _, _, hrun again, h, .inl ⟨rfl, ?_⟩⟩
      rintro ⟨ended', c, ht', hc', -⟩
      rw [ht] at ht'
      cases ht'
      rw [hc] at hc'
      cases hc'
    | some c =>
      obtain ⟨root, names, name, rfl, hname, hdots⟩ := exists_of_catalogPath? hc
      have hstumbles : x.Stumbles fs cwd ↔ fs.Stumbles ⟨root, names⟩ := by
        constructor
        · rintro ⟨ended', c, ht', hc', hs⟩
          rw [ht] at ht'
          cases ht'
          rw [hc] at hc'
          cases hc'
          rwa [Path.parent_concat] at hs
        · intro hs
          exact ⟨ended, _, ht, hc, by rwa [Path.parent_concat]⟩
      obtain ⟨y₀, hrun⟩ := runOn_of_catalogPath? ht hc fs
      obtain ⟨y₁, hrun'⟩ := runOn_of_catalogPath? ht hc again
      rcases hw : fs.writeCatalog ended.messages ⟨root, names ++ [name]⟩ with ⟨after, result⟩
      rw [hrun, hw] at hr
      cases hr
      have hresult : ∀ f, result ≠ .error (.fault f) := by
        rintro f rfl
        exact hfault f rfl
      obtain ⟨next, result', hnext, hreruns, hcases⟩ :=
        writeCatalog_again hl htop hdots hname hw hresult hlast h
      rw [hnext] at hrun'
      refine ⟨next, y₁, _, hrun', hreruns, ?_⟩
      rw [hstumbles]
      obtain ⟨rfl, hno⟩ | ⟨hs, q, rfl, rfl⟩ := hcases
      · exact .inl ⟨rfl, hno⟩
      · exact .inr ⟨hs, q, _, rfl, rfl⟩
  · have hrun (fs : FileSystem) : x.runOn fs cwd = (fs, ended, .error (.source e)) := by
      rw [runOn, ht]
    rw [hrun] at hr
    cases hr
    refine ⟨_, _, _, hrun again, h, .inl ⟨rfl, ?_⟩⟩
    rintro ⟨ended', c, ht', -⟩
    rw [ht] at ht'
    cases ht'

end Extraction

/-- A file has one verdict in two runs, or fails in both. -/
def Verdict.Matches (v v' : Verdict) : Prop := v' = v ∨ ∃ m m', v = .failed m ∧ v' = .failed m'

theorem Tally.ofVerdicts_eq_iff {vs vs' : List Verdict} (h : List.Forall₂ Verdict.Matches vs vs') :
    ofVerdicts vs' = ofVerdicts vs ↔ vs' = vs := by
  refine ⟨fun heq ↦ ?_, fun heq ↦ by rw [heq]⟩
  replace heq : vs'.filterMap Verdict.error? = vs.filterMap Verdict.error? := congrArg Tally.errors heq
  induction h with
  | nil => rfl
  | cons hv _ ih =>
    obtain rfl | ⟨m, m', rfl, rfl⟩ := hv
    · rw [List.filterMap_cons, List.filterMap_cons] at heq
      split at heq
      · rw [ih heq]
      · rw [ih (List.cons.inj heq).2]
    · obtain ⟨hm, htail⟩ := List.cons.inj heq
      rw [hm, ih htail]

theorem Tally.results_ofVerdicts_eq {vs vs' : List Verdict} (h : List.Forall₂ Verdict.Matches vs vs') :
    (ofVerdicts vs').results = (ofVerdicts vs).results := by
  change vs'.filterMap Verdict.result? = vs.filterMap Verdict.result?
  induction h with
  | nil => rfl
  | cons hv _ ih =>
    obtain rfl | ⟨m, m', rfl, rfl⟩ := hv
    · rw [List.filterMap_cons, List.filterMap_cons, ih]
    · exact ih

theorem FileError.message_ne (q q' : Path) :
    message ⟨.notDirectory, q'⟩ ≠ message ⟨.present, q⟩ := by
  -- The numbers of the two differ in their first digits.
  have htwo : (message ⟨.notDirectory, q'⟩)[7]? = some 50 := by
    rw [message, show Text.ofNat Obstacle.notDirectory.number = [50, 48] by decide]
    rfl
  have hone : (message ⟨.present, q⟩)[7]? = some 49 := by
    rw [message, show Text.ofNat Obstacle.present.number = [49, 55] by decide]
    rfl
  intro h
  rw [h, hone] at htwo
  exact absurd htwo (by decide)

namespace ProjectRun

open FileSystem

variable {options : Options} {enabled : List Language} {root p : Path}
  {fs mid after last again : FileSystem} {v : Verdict} {ps : List Path} {vs : List Verdict}

/-- The directory for the catalog of a file that is extracted stumbles. -/
def Stumbles (options : Options) (enabled : List Language) (root : Path) (fs : FileSystem) (p : Path) :
    Prop :=
  (Language.detect? enabled p).isSome ∧
    ∃ f, fs.read p = .ok f ∧ (opened options root f p).Stumbles fs root

/-- A file in its turn ends in the second run as in the first, unless its directories have stumbled. -/
theorem ends_again (h : Ends options enabled root fs p v mid) (hl : fs.IsLinkless)
    (htop : fs.face? [] = some .directory) (hread : again.read p = fs.read p) (hlast : mid.Extends last)
    (hreruns : Reruns fs last again) :
    ∃ v' next, Ends options enabled root again p v' next ∧ Reruns mid last next ∧ v.Matches v' ∧
      (v' = v ↔ ¬Stumbles options enabled root fs p) := by
  have hstumbles {f : File} (hs : (Language.detect? enabled p).isSome) (hf : fs.read p = .ok f) :
      Stumbles options enabled root fs p ↔ (opened options root f p).Stumbles fs root := by
    constructor
    · rintro ⟨-, f', hf', hstumbles⟩
      rw [hf] at hf'
      cases hf'
      exact hstumbles
    · intro hstumbles
      exact ⟨hs, f, hf, hstumbles⟩
  cases h with
  | skipped hn =>
    refine ⟨_, again, .skipped hn, hreruns, .inl rfl, iff_of_true rfl ?_⟩
    rintro ⟨hs, -⟩
    rw [hn] at hs
    cases hs
  | @unreadable e hs hf =>
    refine ⟨_, again, .unreadable hs (hread.trans hf), hreruns, .inl rfl, iff_of_true rfl ?_⟩
    rintro ⟨-, f', hf', -⟩
    rw [hf] at hf'
    cases hf'
  | @processed f _ x r hs hf hr =>
    obtain ⟨next, y, r', hrun, hnext, hcases⟩ :=
      Extraction.runOn_again hl htop hr nofun hlast hreruns
    obtain ⟨rfl, hno⟩ | ⟨-, _, _, ⟨⟩, -⟩ := hcases
    rw [hstumbles hs hf]
    exact ⟨_, next, .processed hs (hread.trans hf) hrun, hnext, .inl rfl, iff_of_true rfl hno⟩
  | @rejected f _ x r hs hf hr =>
    obtain ⟨next, y, r', hrun, hnext, hcases⟩ :=
      Extraction.runOn_again hl htop hr nofun hlast hreruns
    obtain ⟨rfl, hno⟩ | ⟨-, _, _, ⟨⟩, -⟩ := hcases
    rw [hstumbles hs hf]
    exact ⟨_, next, .rejected hs (hread.trans hf) hrun, hnext, .inl rfl, iff_of_true rfl hno⟩
  | @unwritten f _ x e hs hf hr =>
    obtain ⟨next, y, r', hrun, hnext, hcases⟩ :=
      Extraction.runOn_again hl htop hr nofun hlast hreruns
    rw [hstumbles hs hf]
    obtain ⟨rfl, hno⟩ | ⟨hyes, q, q', hq, rfl⟩ := hcases
    · exact ⟨_, next, .unwritten hs (hread.trans hf) hrun, hnext, .inl rfl, iff_of_true rfl hno⟩
    · cases hq
      refine ⟨_, next, .unwritten hs (hread.trans hf) hrun, hnext, .inr ⟨_, _, rfl, rfl⟩, ?_⟩
      refine iff_of_false (fun heq ↦ ?_) (not_not_intro hyes)
      exact FileError.message_ne q q' (List.append_cancel_left (Verdict.failed.inj heq))

theorem Ends.unique {v' : Verdict} {mid' : FileSystem} (h : Ends options enabled root fs p v mid)
    (h' : Ends options enabled root fs p v' mid') : mid = mid' := by
  obtain ⟨logs, hs⟩ := step_of_ends (.start fs) h
  obtain ⟨logs', hs'⟩ := step_of_ends (.start fs) h'
  exact congrArg (fun r : ProjectRun × Option Fault ↦ r.1.files) (hs.symm.trans hs')

/-- One of some files that are taken in order has directories that stumble. -/
def StumblesAmong (options : Options) (enabled : List Language) (root : Path) (fs : FileSystem)
    (ps : List Path) : Prop :=
  ∃ before p rest vs mid, ps = before ++ p :: rest ∧ Accounts options enabled root fs before vs mid ∧
    Stumbles options enabled root mid p

theorem stumblesAmong_cons (h : Ends options enabled root fs p v mid) :
    StumblesAmong options enabled root fs (p :: ps) ↔
      Stumbles options enabled root fs p ∨ StumblesAmong options enabled root mid ps := by
  constructor
  · rintro ⟨before, p', rest, vs, last, hps, haccounts, hstumbles⟩
    cases haccounts with
    | nil =>
      cases hps
      exact .inl hstumbles
    | cons hends haccounts =>
      cases hps
      obtain rfl := h.unique hends
      exact .inr ⟨_, p', rest, _, last, rfl, haccounts, hstumbles⟩
  · rintro (hstumbles | ⟨before, p', rest, vs, last, rfl, haccounts, hstumbles⟩)
    · exact ⟨[], p, ps, [], fs, rfl, .nil fs, hstumbles⟩
    · exact ⟨p :: before, p', rest, v :: vs, last, rfl, .cons h haccounts, hstumbles⟩

/-- All files end in the second run as in the first, except those whose directories have stumbled. -/
theorem accounts_again (h : Accounts options enabled root fs ps vs last) (hl : fs.IsLinkless)
    (htop : ps ≠ [] → fs.face? [] = some .directory)
    (hread : ∀ p ∈ ps, ∃ f, ∀ fs', fs.AddsCatalogs fs' → fs'.read p = .ok f)
    (hreruns : Reruns fs last again) :
    ∃ vs' next, Accounts options enabled root again ps vs' next ∧ Reruns last last next ∧
      List.Forall₂ Verdict.Matches vs vs' ∧
      (vs' = vs ↔ ¬StumblesAmong options enabled root fs ps) := by
  -- Both runs take a file in one step; that the first goes on to the files it leaves at last is kept.
  induction h generalizing again with
  | nil fs =>
    refine ⟨[], again, .nil again, hreruns, .nil, iff_of_true rfl ?_⟩
    rintro ⟨before, p, rest, vs, mid, hps, -⟩
    simp at hps
  | @cons fs mid last p v ps vs hends haccounts ih =>
    have hmid := hends.addsCatalogs hl
    have hl' := hl.of_extends hmid.toExtends
    have hlast := haccounts.addsCatalogs hl'
    have hadds := (hmid.trans hlast).trans hreruns.added
    obtain ⟨f, hf⟩ := hread p List.mem_cons_self
    have htop := htop (by simp)
    obtain ⟨v', next, hends', hnext, hmatch, hv⟩ :=
      ends_again hends hl htop ((hf again hadds).trans (hf fs (.refl fs)).symm) hlast.toExtends hreruns
    obtain ⟨vs', next', haccounts', hnext', hmatches, hvs⟩ :=
      ih hl' (fun _ ↦ hmid.directory [] htop) (fun p hp ↦ by
        obtain ⟨f, hf⟩ := hread p (List.mem_cons_of_mem _ hp)
        exact ⟨f, fun fs' hfs' ↦ hf fs' (hmid.trans hfs')⟩) hnext
    refine ⟨v' :: vs', next', .cons hends' haccounts', hnext', .cons hmatch hmatches, ?_⟩
    rw [stumblesAmong_cons hends, not_or, ← hv, ← hvs, List.cons.injEq]

/-- The catalog that a processed file tells of is under the name of one. -/
theorem Ends.output_eq {r : FileResult} (h : Ends options enabled root fs p (.processed r) mid) {c : Path}
    (hc : r.output = some c) :
    ∃ above names name, c = ⟨above, names ++ [name]⟩ ∧ Path.IsCatalogName name ∧
      name ≠ Path.dotDot := by
  cases h with
  | processed _ _ hr =>
    cases Extraction.emits_of_runOn hr with
    | untold _ _ => cases hc
    | written o _ =>
      cases hc
      exact Extraction.exists_of_catalogPath? o.path_eq

theorem Accounts.output_eq (h : Accounts options enabled root fs ps vs after) {r : FileResult}
    (hr : r ∈ vs.filterMap Verdict.result?) {c : Path} (hc : r.output = some c) :
    ∃ above names name, c = ⟨above, names ++ [name]⟩ ∧ Path.IsCatalogName name ∧
      name ≠ Path.dotDot := by
  induction h with
  | nil => cases hr
  | @cons _ _ _ _ v _ vs hends _ ih =>
    obtain ⟨w, hw, hresult⟩ := List.mem_filterMap.mp hr
    obtain rfl | hw := List.mem_cons.mp hw
    · cases w with
      | processed r' =>
        cases hresult
        exact hends.output_eq hc
      | skipped => cases hresult
      | failed message => cases hresult
    · exact ih (List.mem_filterMap.mpr ⟨w, hw, hresult⟩)

end ProjectRun

namespace Settings

open ProjectRun FileSystem

variable {s : Settings} {fs fs' : FileSystem} {run : ProjectRun}

/-- A run that comes to its end has taken every file that a walk finds at its start, and has counted it. -/
theorem accounts_of_extractAll (hfs : fs.IsStepless) (hd : fs.IsDistinct) (hl : fs.IsLinkless)
    (h : s.extractAll fs = (run, none)) :
    ∃ enabled rules vs, Language.enable s.languages = .ok enabled ∧
      Ignore.Rules.load fs (fs.canonical s.root) s.ignore = .ok rules ∧
      Accounts s.extraction enabled (fs.canonical s.root) fs (s.walked fs rules) vs run.files ∧
      run.tally = .ofVerdicts vs := by
  cases hrules : Ignore.Rules.load fs (fs.canonical s.root) s.ignore with
  | error e => simp [extractAll, hrules] at h
  | ok rules =>
    cases henabled : Language.enable s.languages with
    | error e => simp [extractAll, hrules, henabled] at h
    | ok enabled =>
      have htaken := taken_eq_walked hfs hd hl henabled hrules (by rw [h])
      obtain ⟨vs, after, ha⟩ | ⟨before, p, after, vs, mid, fault, hw, ha, he⟩ :=
        accounts_or_escapes s.extraction enabled (fs.canonical s.root) fs (s.taken fs enabled rules)
      · obtain ⟨logs, hrun⟩ := extractAll_of_accounts henabled hrules ha
        obtain ⟨rfl, -⟩ := Prod.mk.inj (hrun.symm.trans h)
        exact ⟨enabled, rules, vs, rfl, rfl, htaken ▸ ha, rfl⟩
      · obtain ⟨stopped, hstopped, -⟩ := extractAll_of_escapes henabled hrules hw ha he
        rw [h] at hstopped
        cases hstopped

/-- Something stands under the name of a file for ignore rules that did not before. -/
def GainsIgnoreFile (s : Settings) (fs fs' : FileSystem) : Prop :=
  ∃ p ∈ s.ignore.paths (fs.canonical s.root), fs'.contains p = true ∧ fs.contains p = false

/-- One of the files that a run over a project takes has directories that stumble. -/
def StumblesIn (s : Settings) (fs : FileSystem) : Prop :=
  ∃ enabled rules, Language.enable s.languages = .ok enabled ∧
    Ignore.Rules.load fs (fs.canonical s.root) s.ignore = .ok rules ∧
    StumblesAmong s.extraction enabled (fs.canonical s.root) fs (s.walked fs rules)

theorem top_of_walked (hfs : fs.IsStepless) (hd : fs.IsDistinct) (hl : fs.IsLinkless)
    {rules : Ignore.Rules} (h : s.walked fs rules ≠ []) : fs.face? [] = some .directory := by
  obtain ⟨p, hp⟩ := List.exists_mem_of_ne_nil _ h
  obtain ⟨above, name, g, -, -, -, hg⟩ := place_of_walked hfs hd hl hp
  have hsome : (fs.face? (above ++ [name])).isSome := by rw [hg]; rfl
  exact face?_of_isPrefix List.nil_prefix (face?_above hsome)

theorem load_again_iff (hl : fs.IsLinkless) (h : fs.AddsCatalogs fs') {rules rules' : Ignore.Rules}
    (hrules : Ignore.Rules.load fs (fs.canonical s.root) s.ignore = .ok rules) :
    Ignore.Rules.load fs' (fs'.canonical s.root) s.ignore = .ok rules' ↔
      rules' = rules ∧ ¬s.GainsIgnoreFile fs fs' := by
  rw [Ignore.Rules.load_again_iff hl h hrules, GainsIgnoreFile]
  simp

/-- A second run does not begin if something stands now under the name of a file for ignore rules. If it
begins it comes to its end and leaves all files as they are. -/
theorem extractAll_again (hfs : fs.IsStepless) (hd : fs.IsDistinct) (hl : fs.IsLinkless)
    (h : s.extractAll fs = (run, none)) :
    (s.GainsIgnoreFile fs run.files →
      ∃ e, s.extractAll run.files = (.start run.files, some (.ignore e))) ∧
    (¬s.GainsIgnoreFile fs run.files → ∃ again, s.extractAll run.files = (again, none) ∧
      again.files.face? = run.files.face? ∧ again.tally.results = run.tally.results ∧
      (again.tally = run.tally ↔ ¬s.StumblesIn fs)) := by
  obtain ⟨enabled, rules, vs, henabled, hrules, haccounts, htally⟩ := accounts_of_extractAll hfs hd hl h
  have hadds := haccounts.addsCatalogs hl
  have hl' := hl.of_extends hadds.toExtends
  constructor
  · intro hgains
    cases hagain : Ignore.Rules.load run.files (run.files.canonical s.root) s.ignore with
    | error e => exact ⟨e, by simp only [extractAll, hagain]⟩
    | ok rules' => exact absurd hgains ((load_again_iff hl hadds hrules).mp hagain).2
  · intro hgains
    have hd' := haccounts.evolves.isDistinct hd
    have hwalked := walked_of_addsCatalogs (s := s) hfs hd hl hd' hadds rules
    obtain ⟨vs', next, haccounts', hnext, hmatches, hvs⟩ :=
      accounts_again haccounts hl (top_of_walked hfs hd hl) (fun p hp ↦ read_of_walked hfs hd hl hp)
        (.start fs run.files)
    obtain ⟨logs, hsteps⟩ := steps_start_of_accounts haccounts' []
    have hagain : s.extractAll run.files = (⟨next, logs, .ofVerdicts vs'⟩, none) := by
      rw [extractAll_eq_walked (haccounts.evolves.isStepless hfs) hd' hl' henabled
        ((load_again_iff hl hadds hrules).mpr ⟨rfl, hgains⟩), hwalked, hl'.canonical_eq hl s.root]
      rw [List.append_nil] at hsteps
      rw [hsteps]
      rfl
    refine ⟨_, hagain, hnext.face?_eq, ?_, ?_⟩
    · rw [htally]
      exact Tally.results_ofVerdicts_eq hmatches
    · have hstumbles : s.StumblesIn fs ↔
          StumblesAmong s.extraction enabled (fs.canonical s.root) fs (s.walked fs rules) := by
        constructor
        · rintro ⟨enabled', rules', henabled', hrules', hstumbles⟩
          cases henabled.symm.trans henabled'
          cases hrules.symm.trans hrules'
          exact hstumbles
        · intro hstumbles
          exact ⟨enabled, rules, henabled, hrules, hstumbles⟩
      rw [htally, Tally.ofVerdicts_eq_iff hmatches, hvs, hstumbles]

/-- Both runs take the files that a walk finds at the start of the first. -/
theorem taken_again (hfs : fs.IsStepless) (hd : fs.IsDistinct) (hl : fs.IsLinkless)
    (h : s.extractAll fs = (run, none)) {enabled : List Language} {rules : Ignore.Rules}
    (henabled : Language.enable s.languages = .ok enabled)
    (hrules : Ignore.Rules.load fs (fs.canonical s.root) s.ignore = .ok rules) :
    s.taken fs enabled rules = s.walked fs rules ∧
      ((s.extractAll run.files).2 = none → s.taken run.files enabled rules = s.walked fs rules) := by
  obtain ⟨_, _, vs, -, -, haccounts, -⟩ := accounts_of_extractAll hfs hd hl h
  have hadds := haccounts.addsCatalogs hl
  have hl' := hl.of_extends hadds.toExtends
  have hfs' := haccounts.evolves.isStepless hfs
  have hd' := haccounts.evolves.isDistinct hd
  refine ⟨taken_eq_walked hfs hd hl henabled hrules (by rw [h]), fun hend ↦ ?_⟩
  obtain ⟨_, rules', _, -, hrules', -, -⟩ :=
    accounts_of_extractAll hfs' hd' hl' (Prod.ext rfl hend : s.extractAll run.files = (_, none))
  obtain ⟨rfl, -⟩ := (load_again_iff hl hadds hrules).mp hrules'
  rw [taken_eq_walked hfs' hd' hl' henabled hrules' hend, walked_of_addsCatalogs hfs hd hl hd' hadds]

/-- No catalog that a run has written is walked afterwards. -/
theorem not_walked_of_leadsTo (hfs : fs.IsStepless) (hd : fs.IsDistinct) (hl : fs.IsLinkless)
    (h : s.extractAll fs = (run, none)) {r : FileResult} (hr : r ∈ run.tally.results)
    {q : List Text} (hq : r.LeadsTo run.files q) {rules : Ignore.Rules} {p : Path}
    (hp : p ∈ s.walked fs rules) : run.files.resolve .whole p ≠ .ok q := by
  obtain ⟨enabled, _, vs, -, -, haccounts, htally⟩ := accounts_of_extractAll hfs hd hl h
  have hadds := haccounts.addsCatalogs hl
  have hl' := hl.of_extends hadds.toExtends
  obtain ⟨c, hc, hresolve⟩ := hq
  rw [htally] at hr
  obtain ⟨above, names, name, rfl, hname, hdots⟩ := haccounts.output_eq hr hc
  obtain ⟨place, rfl⟩ := last_of_advance hdots (hl'.resolve_eq_ok_iff.mp hresolve)
  obtain ⟨above', name', g, rfl, hdots', hname', hg⟩ := place_of_walked hfs hd hl hp
  rw [← hadds.face?_eq_file_iff hname'] at hg
  rw [hl'.resolve_place hdots' (by simp [hg])]
  intro heq
  obtain ⟨-, hlast⟩ := List.append_inj' (Except.ok.inj heq) rfl
  cases hlast
  exact hname' hname

/-- If something stumbles there is a step back in the directory for messages. It is met on the way to the
catalog of a file that is walked, where nothing stands in the turn of that file; and once the directories
before it are made, the way leads to a file that was there. -/
theorem exists_of_stumblesIn (hfs : fs.IsProper) (hd : fs.IsDistinct) (hl : fs.IsLinkless)
    (h : s.StumblesIn fs) :
    ∃ directory rules p, s.extraction.messagesDir = some directory ∧ Path.dotDot ∈ directory.segments ∧
      p ∈ s.walked fs rules ∧ ∃ mid made front back place f,
        (Path.ofCatalog directory p (fs.canonical s.root)).parent.segments = front ++ back ∧ back ≠ [] ∧
        Path.dotDot ∈ front ∧ fs.AddsCatalogs mid ∧ mid.advance .whole [] front = .error .missing ∧
        mid.AddsDirectories made ∧ made.advance .whole [] front = .ok (.arrived place) ∧
        mid.face? place = some (.file f) := by
  obtain ⟨enabled, rules, -, -, before, p, rest, vs, mid, hwalked, haccounts, hstumbles⟩ := h
  obtain ⟨-, g, -, ended, c, ht, hc, hs⟩ := hstumbles
  have hp : p ∈ s.walked fs rules := by simp [hwalked]
  have htop := top_of_walked hfs.isStepless hd hl (List.ne_nil_of_mem hp)
  have hadds := haccounts.addsCatalogs hl
  obtain ⟨made, front, back, place, f, hnames, hback, hdots, hmissing, hmade, ha, hf⟩ :=
    (stumbles_iff (hl.of_extends hadds.toExtends) (hadds.directory [] htop)).mp hs
  have hmadeAdds := mid.addsDirectories_makeDirectories c.parent
  rw [hmade] at hmadeAdds
  rw [Extraction.catalogPath?, (Extraction.grows_of_traverse ht).options,
    (Extraction.grows_of_traverse ht).source, options_opened, filename_opened] at hc
  split at hc
  · cases hc
  · obtain ⟨directory, hdirectory, rfl⟩ := Option.map_eq_some_iff.mp hc
    obtain ⟨above, name, _, rfl, -, -, hface⟩ := place_of_walked hfs.isStepless hd hl hp
    have hsegments : ∀ t ∈ above ++ [name], Path.IsSegment t := fun t ht ↦
      (hfs.isName (by simp [hface]) t ht).1
    rw [Path.ofText_toText hsegments] at hnames
    have hstep : Path.dotDot ∈ directory.segments := by
      have hway := hnames ▸ List.mem_append_left back hdots
      simpa [Path.parent, Path.ofCatalog] using hway
    exact ⟨directory, rules, _, hdirectory, hstep, hp, mid, made, front, back, place, f, hnames, hback,
      hdots, hadds, hmissing, hmadeAdds, ha, hf⟩

/-- Without steps back in the directory for messages nothing stumbles. -/
theorem not_stumblesIn (hfs : fs.IsProper) (hd : fs.IsDistinct) (hl : fs.IsLinkless)
    (h : ∀ directory, s.extraction.messagesDir = some directory → Path.dotDot ∉ directory.segments) :
    ¬s.StumblesIn fs := by
  intro hstumbles
  obtain ⟨directory, _, _, hdirectory, hdots, -⟩ := exists_of_stumblesIn hfs hd hl hstumbles
  exact h directory hdirectory hdots

/-- A run over what a run has left counts the same, with the same results, and leaves all files as they
are, exactly if the first has brought nothing under the name of a file for ignore rules, and no directory
has stumbled, which none does where the directory for messages has no step back. In any case it takes the
same files, which are those that a walk finds at the start of the first, and no catalog is one of them. -/
theorem rerun_repeats_iff (hfs : fs.IsProper) (hd : fs.IsDistinct) (hl : fs.IsLinkless)
    (h : s.extractAll fs = (run, none)) :
    (∀ rules, s.walked run.files rules = s.walked fs rules) ∧
    (∀ enabled rules, Language.enable s.languages = .ok enabled →
      Ignore.Rules.load fs (fs.canonical s.root) s.ignore = .ok rules →
      s.taken fs enabled rules = s.walked fs rules ∧
        ((s.extractAll run.files).2 = none → s.taken run.files enabled rules = s.walked fs rules)) ∧
    (∀ r ∈ run.tally.results, ∀ q, r.LeadsTo run.files q →
      ∀ rules, ∀ p ∈ s.walked run.files rules, run.files.resolve .whole p ≠ .ok q) ∧
    ((∃ again, s.extractAll run.files = (again, none) ∧ again.tally = run.tally ∧
        again.files.face? = run.files.face?) ↔
      ¬s.GainsIgnoreFile fs run.files ∧ ¬s.StumblesIn fs) ∧
    (¬s.GainsIgnoreFile fs run.files → ∃ again, s.extractAll run.files = (again, none) ∧
      again.tally.results = run.tally.results ∧ again.files.face? = run.files.face?) ∧
    ((∀ directory, s.extraction.messagesDir = some directory → Path.dotDot ∉ directory.segments) →
      ¬s.StumblesIn fs) := by
  have hwalked (rules : Ignore.Rules) : s.walked run.files rules = s.walked fs rules := by
    obtain ⟨enabled, _, vs, -, -, haccounts, -⟩ := accounts_of_extractAll hfs.isStepless hd hl h
    exact walked_of_addsCatalogs hfs.isStepless hd hl (haccounts.evolves.isDistinct hd)
      (haccounts.addsCatalogs hl) rules
  obtain ⟨hgains, hagain⟩ := extractAll_again hfs.isStepless hd hl h
  refine ⟨hwalked, fun _ _ henabled hrules ↦ taken_again hfs.isStepless hd hl h henabled hrules,
    fun r hr q hq rules p hp ↦ ?_, ⟨?_, ?_⟩, ?_, not_stumblesIn hfs hd hl⟩
  · rw [hwalked] at hp
    exact not_walked_of_leadsTo hfs.isStepless hd hl h hr hq hp
  · rintro ⟨again, hrun, htally, -⟩
    have hnot : ¬s.GainsIgnoreFile fs run.files := by
      intro hgain
      obtain ⟨e, he⟩ := hgains hgain
      rw [hrun] at he
      cases he
    obtain ⟨again', hrun', -, -, hiff⟩ := hagain hnot
    obtain ⟨rfl, -⟩ := Prod.mk.inj (hrun.symm.trans hrun')
    exact ⟨hnot, hiff.mp htally⟩
  · intro ⟨hnot, hstumbles⟩
    obtain ⟨again, hrun, hface, -, hiff⟩ := hagain hnot
    exact ⟨again, hrun, hiff.mpr hstumbles, hface⟩
  · intro hnot
    obtain ⟨again, hrun, hface, hresults, -⟩ := hagain hnot
    exact ⟨again, hrun, hresults, hface⟩

end Settings

section CallsAgain

/-- A second run over two files finds the catalogs of the first and writes them again. -/
theorem twoCalls_again : ∃ run again, catalogSettings.extractAll (twoCalls "b.ts") = (run, none) ∧
    run.tally.catalogs = 2 ∧ catalogSettings.extractAll run.files = (again, none) ∧
    again.tally = run.tally ∧ again.files.face? = run.files.face? := by
  have hrun : catalogSettings.extractAll (twoCalls "b.ts") = ((twoSteps "b.ts").1, none) := by
    have hend : (twoSteps "b.ts").2 = none := by decide +kernel
    rw [extractAll_twoCalls (by decide) (by decide) (by decide +kernel)
      (walked_twoCalls (by decide) (by decide +kernel)), hend]
    rfl
  have hgains : ¬catalogSettings.GainsIgnoreFile (twoCalls "b.ts") (twoSteps "b.ts").1.files := by
    have hnone : ∀ p ∈ catalogSettings.ignore.paths projectRoot,
        (twoSteps "b.ts").1.files.contains p = false := by decide +kernel
    rintro ⟨p, hp, hcontains, -⟩
    rw [hnone p hp] at hcontains
    cases hcontains
  obtain ⟨-, -, -, hiff, -, hforward⟩ := Settings.rerun_repeats_iff (isProper_twoCalls (by decide))
    (isDistinct_twoCalls (by decide)) (isLinkless_twoCalls "b.ts") hrun
  have hstumbles := hforward (by rintro _ ⟨⟩; decide)
  obtain ⟨again, hagain, htally, hface⟩ := hiff.mpr ⟨hgains, hstumbles⟩
  exact ⟨_, again, hrun, by decide +kernel, hagain, htally, hface⟩

/-- The directory for messages is under the name of the file for ignore rules. -/
def ignoredSettings : Settings :=
  { projectSettings with
    extraction := { Options.standard with messagesDir := some (projectRoot.child ".gitignore") } }

def ignoredSteps : ProjectRun × Option Fault :=
  (ProjectRun.start (projectOf (letterCall "a"))).steps ignoredSettings.extraction Language.all projectRoot
    [callPath]

/-- The first run makes a directory that the second cannot read rules from. -/
theorem letterCall_not_again : ∃ run, ignoredSettings.extractAll (projectOf (letterCall "a")) = (run, none) ∧
    run.tally.processed = 1 ∧ ignoredSettings.extractAll run.files =
      (.start run.files, some (.ignore (.file ⟨.isDirectory, projectRoot.child ".gitignore"⟩))) := by
  have hl : Language.enable ignoredSettings.languages = .ok Language.all := by cbv
  have hc : (projectOf (letterCall "a")).canonical ignoredSettings.root = projectRoot := by decide +kernel
  have hr : Ignore.Rules.load (projectOf (letterCall "a")) projectRoot ignoredSettings.ignore =
      .ok (projectRules (letterCall "a")) := load_projectOf (by decide +kernel)
  have hw : ignoredSettings.taken (projectOf (letterCall "a")) Language.all (projectRules (letterCall "a")) =
      [callPath] := by
    decide +kernel
  have hend : ignoredSteps.2 = none := by decide +kernel
  have hrun : ignoredSettings.extractAll (projectOf (letterCall "a")) = (ignoredSteps.1, none) := by
    rw [Settings.extractAll_eq hl (by rw [hc]; exact hr), hc, hw, ← ignoredSteps, hend]
    rfl
  have hload : Ignore.Rules.load ignoredSteps.1.files
      (ignoredSteps.1.files.canonical ignoredSettings.root) ignoredSettings.ignore =
      .error (.file ⟨.isDirectory, projectRoot.child ".gitignore"⟩) := by
    decide +kernel
  refine ⟨_, hrun, by decide +kernel, ?_⟩
  simp only [Settings.extractAll, hload]

end CallsAgain

end MessageExtraction
