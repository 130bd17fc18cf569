import MessageExtraction.Proofs.Extraction.Growth
import MessageExtraction.Proofs.Project.Turns

/-!
Whose catalog is found where, after a run over a project. A catalog is written over whatever stands at
the end of its path, so that files whose paths lead to one place all find the catalog of one of them.
-/

namespace MessageExtraction

namespace FileResult

def sourcePath (r : FileResult) : Path := .ofText r.filename

/-- The bytes that the messages make as a catalog. -/
def catalogBytes? (r : FileResult) : Option Bytes :=
  (Message.dump r.messages).toOption.bind Utf8.encode?

/-- The path of the catalog leads to a place. -/
def LeadsTo (r : FileResult) (fs : FileSystem) (q : List Text) : Prop :=
  ∃ p, r.output = some p ∧ fs.resolve .whole p = .ok q

/-- The paths of two catalogs lead to one place. -/
def SharesPlace (fs : FileSystem) (r r' : FileResult) : Prop := ∃ q, r.LeadsTo fs q ∧ r'.LeadsTo fs q

/-- The sources stand in one directory and have one name up to its suffix. -/
def Doubles (r r' : FileResult) : Prop :=
  r.sourcePath.parent = r'.sourcePath.parent ∧ r.sourcePath.stem = r'.sourcePath.stem

/-- What a processed file says about itself: its name, and where its messages went. -/
structure IsOf (r : FileResult) (directory root p : Path) : Prop where
  filename : r.filename = p.toText
  output : r.messages ≠ [] → r.output = some (.ofCatalog directory (.ofText r.filename) root)

/-- The source stands below a root, under names, and the path of its catalog is made of its own. -/
structure StandsBelow (r : FileResult) (directory : Path) (above names : List Text) : Prop where
  isName_above : ∀ t ∈ above, Path.IsName t
  ne_nil : names ≠ []
  isName : ∀ t ∈ names, Path.IsName t
  sourcePath_eq : r.sourcePath = ⟨[CodePoint.slash], above ++ names⟩
  output_eq : r.output = some (.ofCatalog directory r.sourcePath ⟨[CodePoint.slash], above⟩)

variable {fs fs' : FileSystem} {r r' : FileResult} {q : List Text} {directory : Path}
  {above names names' : List Text}

theorem IsOf.standsBelow (h : r.IsOf directory ⟨[CodePoint.slash], above⟩ ⟨[CodePoint.slash], above ++ names⟩)
    (hnames : ∀ t ∈ above ++ names, Path.IsName t) (hne : names ≠ []) (hm : r.messages ≠ []) :
    r.StandsBelow directory above names where
  isName_above t ht := hnames t (List.mem_append_left _ ht)
  ne_nil := hne
  isName t ht := hnames t (List.mem_append_right _ ht)
  sourcePath_eq := by
    rw [sourcePath, h.filename]
    exact Path.ofText_toText fun t ht ↦ (hnames t ht).1
  output_eq := h.output hm

theorem StandsBelow.output_eq_iff (h : r.StandsBelow directory above names)
    (h' : r'.StandsBelow directory above names') : r.output = r'.output ↔ r.Doubles r' := by
  rw [h.output_eq, h'.output_eq, Option.some_inj, Doubles, h.sourcePath_eq, h'.sourcePath_eq]
  exact Path.ofCatalog_eq_iff directory h.isName_above h.ne_nil h.isName h'.ne_nil h'.isName

theorem LeadsTo.of_extends (h : r.LeadsTo fs q) (hext : fs.Extends fs') (hq : fs.bytesAt? q ≠ none) :
    r.LeadsTo fs' q := by
  obtain ⟨p, hp, hr⟩ := h
  obtain ⟨f, hf⟩ := FileSystem.face?_of_bytesAt? hq
  obtain ⟨f', hf'⟩ := hext.file q f hf
  exact ⟨p, hp, FileSystem.resolve_extends hext (by decide) (fun _ ↦ by simp [hf']) hr⟩

end FileResult

namespace FileSystem

variable {fs fs' : FileSystem} {r : FileResult} {q : List Text}

/-- What is found at the end of the path that a catalog was written to. -/
def catalogOf? (fs : FileSystem) (r : FileResult) : Option Bytes :=
  r.output.bind fun p ↦ (fs.read p).toOption.map File.bytes

/-- At the end of the path of a catalog another is found, or the same. -/
def Finds (fs : FileSystem) (r r' : FileResult) : Prop :=
  ∃ bytes, r'.catalogBytes? = some bytes ∧ fs.catalogOf? r = some bytes

def IsUnlinked (fs : FileSystem) (directory : Path) : Prop :=
  ∀ base, fs.resolve .whole directory = .ok base →
    ∀ q target, base <+: q → fs.face? q ≠ some (.link target)

/-- Where there are no links, catalogs of one place have one path. -/
theorem IsUnlinked.output_eq {r' : FileResult} {directory : Path} {above names above' names' : List Text}
    (hlinks : fs.IsUnlinked directory) (h : r.StandsBelow directory above names)
    (h' : r'.StandsBelow directory above' names') (hshares : r.SharesPlace fs r') :
    r.output = r'.output := by
  obtain ⟨q, ⟨out, hout, hq⟩, ⟨out', hout', hq'⟩⟩ := hshares
  have houtput := h.output_eq
  have houtput' := h'.output_eq
  rw [h.sourcePath_eq, Path.ofCatalog_below directory h.isName_above h.ne_nil h.isName] at houtput
  rw [h'.sourcePath_eq, Path.ofCatalog_below directory h'.isName_above h'.ne_nil h'.isName] at houtput'
  obtain rfl := Option.some.inj (hout.symm.trans houtput)
  obtain rfl := Option.some.inj (hout'.symm.trans houtput')
  obtain ⟨base, hbase, hplace⟩ := resolve_below hq (Path.dotDot_notMem_catalog h.isName _) hlinks
  obtain ⟨base', hbase', hplace'⟩ := resolve_below hq' (Path.dotDot_notMem_catalog h'.isName _) hlinks
  obtain rfl : base = base' := Except.ok.inj (hbase.symm.trans hbase')
  rw [hout, hout', List.append_cancel_left (hplace.symm.trans hplace')]

theorem catalogOf?_of_leadsTo (h : r.LeadsTo fs q) : fs.catalogOf? r = fs.bytesAt? q := by
  obtain ⟨p, hp, hq⟩ := h
  rw [catalogOf?, hp, Option.bind_some, read, hq, bytesAt?, face?]
  cases hi : fs.at? q with
  | none => simp only [hi]; rfl
  | some i => cases i <;> simp only [hi] <;> rfl

/-- At a place stands the catalog of one of the files with messages whose paths lead there, or it was
emptied. -/
def Accounted (fs : FileSystem) (rs : List FileResult) (emptied : Prop) (q : List Text) : Prop :=
  (∃ r ∈ rs, r.messages ≠ [] ∧ r.LeadsTo fs q ∧ fs.bytesAt? q = r.catalogBytes?) ∨
    emptied ∧ fs.bytesAt? q = some []

/-- The files with messages have catalogs, and the places that their paths lead to are accounted for. -/
def Settled (fs : FileSystem) (rs : List FileResult) (emptied : Prop) : Prop :=
  ∀ r ∈ rs, r.messages ≠ [] → r.catalogBytes?.isSome ∧ ∃ q, r.LeadsTo fs q ∧ fs.Accounted rs emptied q

variable {rs rs' : List FileResult} {emptied emptied' : Prop}

/-- Places that were accounted for stay so when what changes is accounted for. -/
theorem Settled.later (h : fs.Settled rs emptied) (hext : fs.Extends fs') (hrs : rs ⊆ rs')
    (hemptied : emptied → emptied')
    (hbytes : ∀ q, fs'.bytesAt? q = fs.bytesAt? q ∨ fs'.Accounted rs' emptied' q)
    (hr : r ∈ rs) (hm : r.messages ≠ []) :
    r.catalogBytes?.isSome ∧ ∃ q, r.LeadsTo fs' q ∧ fs'.Accounted rs' emptied' q := by
  obtain ⟨hsome, q, hq, hold⟩ := h r hr hm
  -- A file stands at the place, and where a path has led to a file it still does.
  have hne : fs.bytesAt? q ≠ none := by
    obtain ⟨r', hr', hm', -, hbytes⟩ | ⟨-, hbytes⟩ := hold
    · rw [hbytes, ← Option.isSome_iff_ne_none]
      exact (h r' hr' hm').1
    · rw [hbytes]
      simp
  refine ⟨hsome, q, hq.of_extends hext hne, ?_⟩
  obtain hsame | hnew := hbytes q
  · obtain ⟨r', hr', hm', hq', hbytes⟩ | ⟨he, hbytes⟩ := hold
    · exact .inl ⟨r', hrs hr', hm', hq'.of_extends hext hne, hsame.trans hbytes⟩
    · exact .inr ⟨hemptied he, hsame.trans hbytes⟩
  · exact hnew

theorem Settled.of_addsDirectories (h : fs.Settled rs emptied) (hadds : fs.AddsDirectories fs') :
    fs'.Settled rs emptied :=
  fun _ hr hm ↦ h.later hadds.extends (List.Subset.refl _) id (fun q ↦ .inl (hadds.bytesAt?_eq q)) hr hm

theorem Settled.of_written (h : fs.Settled rs emptied) (hext : fs.Extends fs') {bytes : Bytes}
    (hbytes : fs'.bytesAt? = Function.update fs.bytesAt? q (some bytes)) (hq : r.LeadsTo fs' q)
    (hm : r.messages ≠ []) (hcatalog : r.catalogBytes? = some bytes) :
    fs'.Settled (rs ++ [r]) emptied := by
  have hnew : fs'.Accounted (rs ++ [r]) emptied q :=
    .inl ⟨r, by simp, hm, hq, by rw [hbytes, Function.update_self, hcatalog]⟩
  intro r' hr' hm'
  rcases List.mem_append.mp hr' with hr' | hr'
  · refine h.later hext (List.subset_append_left _ _) id (fun q' ↦ ?_) hr' hm'
    by_cases hq' : q' = q
    · exact .inr (hq' ▸ hnew)
    · exact .inl (by rw [hbytes, Function.update_of_ne hq'])
  · obtain rfl := List.mem_singleton.mp hr'
    exact ⟨by rw [hcatalog]; rfl, q, hq, hnew⟩

theorem Settled.of_emptied (h : fs.Settled rs emptied) (hext : fs.Extends fs')
    (hbytes : fs'.bytesAt? = Function.update fs.bytesAt? q (some [])) (he : emptied') :
    fs'.Settled rs emptied' := by
  intro r hr hm
  refine h.later hext (List.Subset.refl _) (fun _ ↦ he) (fun q' ↦ ?_) hr hm
  by_cases hq' : q' = q
  · exact .inr (.inr ⟨he, by rw [hbytes, hq', Function.update_self]⟩)
  · exact .inl (by rw [hbytes, Function.update_of_ne hq'])

theorem Settled.imp (h : fs.Settled rs emptied) (himp : emptied → emptied') : fs.Settled rs emptied' :=
  fun _ hr hm ↦ h.later (.refl fs) (List.Subset.refl _) himp (fun _ ↦ .inl rfl) hr hm

theorem Settled.catalogOf?_cases (h : fs.Settled rs emptied) (hr : r ∈ rs) (hm : r.messages ≠ []) :
    (∃ r' ∈ rs, r'.messages ≠ [] ∧ r.SharesPlace fs r' ∧ fs.Finds r r') ∨
      emptied ∧ fs.catalogOf? r = some [] := by
  obtain ⟨-, q, hq, ⟨r', hr', hm', hq', hbytes⟩ | ⟨he, hbytes⟩⟩ := h r hr hm
  · obtain ⟨bytes, hcatalog⟩ := Option.isSome_iff_exists.mp (h r' hr' hm').1
    refine .inl ⟨r', hr', hm', ⟨q, hq, hq'⟩, bytes, hcatalog, ?_⟩
    rw [catalogOf?_of_leadsTo hq, hbytes, hcatalog]
  · exact .inr ⟨he, (catalogOf?_of_leadsTo hq).trans hbytes⟩

/-- Where nothing was emptied, every file finds its own catalog exactly when those that share a place
have the same. -/
theorem Settled.finds_iff (h : fs.Settled rs emptied) (he : ¬emptied) :
    (∀ r ∈ rs, r.messages ≠ [] → fs.Finds r r) ↔
      ∀ r ∈ rs, r.messages ≠ [] → ∀ r' ∈ rs, r'.messages ≠ [] → r.SharesPlace fs r' →
        r.catalogBytes? = r'.catalogBytes? := by
  constructor
  · rintro hall r hr hm r' hr' hm' ⟨q, hq, hq'⟩
    obtain ⟨bytes, hbytes, hfound⟩ := hall r hr hm
    obtain ⟨bytes', hbytes', hfound'⟩ := hall r' hr' hm'
    rw [catalogOf?_of_leadsTo hq] at hfound
    rw [catalogOf?_of_leadsTo hq'] at hfound'
    rw [hbytes, hbytes', ← hfound, hfound']
  · intro hsame r hr hm
    obtain ⟨r', hr', hm', hshares, bytes, hbytes, hfound⟩ | ⟨hemptied, -⟩ := h.catalogOf?_cases hr hm
    · exact ⟨bytes, (hsame r hr hm r' hr' hm' hshares).trans hbytes, hfound⟩
    · exact absurd hemptied he

theorem Settled.append_of_messages_eq_nil (h : fs.Settled rs emptied) (hm : r.messages = []) :
    fs.Settled (rs ++ [r]) emptied := by
  intro r' hr' hm'
  rcases List.mem_append.mp hr' with hr' | hr'
  · exact h.later (.refl fs) (List.subset_append_left _ _) id (fun _ ↦ .inl rfl) hr' hm'
  · exact absurd (List.mem_singleton.mp hr' ▸ hm) hm'

end FileSystem

namespace Extraction

variable {x ended : Extraction} {fs : FileSystem} {cwd directory p : Path}

theorem catalogPath?_eq (hd : x.options.messagesDir = some directory) :
    x.catalogPath? cwd =
      if x.messages = [] then none else some (.ofCatalog directory (.ofText x.source.filename) cwd) := by
  rw [catalogPath?, hd]
  cases x.messages <;> rfl

theorem grows_of_traverse (h : x.begin.traverse = (ended, none)) : x.Grows ended := by
  have htraverse := (advances_traverse x.begin).grows
  rw [h] at htraverse
  exact (advances_begin x).grows.trans htraverse

theorem messages_eq_nil_of_traverse (hd : x.options.messagesDir = some directory)
    (h : x.begin.traverse = (ended, none)) (hp : ended.catalogPath? cwd = none) :
    ended.messages = [] := by
  rw [catalogPath?_eq (by rw [(grows_of_traverse h).options, hd])] at hp
  by_contra hm
  rw [if_neg hm] at hp
  cases hp

namespace Opening

variable (o : x.Opening fs cwd)

theorem path_eq_ofCatalog (hd : x.options.messagesDir = some directory) :
    o.ended.messages ≠ [] ∧ o.path = .ofCatalog directory (.ofText x.source.filename) cwd := by
  have hgrows := grows_of_traverse o.traverse_eq
  have hpath := o.path_eq
  rw [catalogPath?_eq (by rw [hgrows.options, hd]), hgrows.source] at hpath
  split at hpath
  · cases hpath
  · exact ⟨‹_›, (Option.some.inj hpath).symm⟩

end Opening

theorem source_openSource (s : Source) (o : Options) :
    (openSource s o).source = s ∧ (openSource s o).options = o := by
  rw [openSource]
  split <;> exact ⟨rfl, rfl⟩

end Extraction

namespace ProjectRun

open FileSystem

variable {options : Options} {enabled : List Language} {root directory p : Path} {fs mid : FileSystem}
  {v : Verdict} {rs : List FileResult} {emptied : Prop}

theorem options_opened (options : Options) (root : Path) (f : File) (p : Path) :
    (opened options root f p).options = options :=
  (Extraction.source_openSource _ _).2

theorem filename_opened (options : Options) (root : Path) (f : File) (p : Path) :
    (opened options root f p).source.filename = p.toText := by
  rw [opened, (Extraction.source_openSource _ _).1]
  rfl

theorem messagesDir_opened (hd : options.messagesDir = some directory) (f : File) (p : Path) :
    (opened options root f p).options.messagesDir = some directory := by
  rw [options_opened, hd]

theorem Ends.isOf (hd : options.messagesDir = some directory) {r : FileResult}
    (h : Ends options enabled root fs p (.processed r) mid) : r.IsOf directory root p := by
  cases h with
  | @processed f _ x _ _ _ hr =>
    have hname {ended : Extraction} (h : (opened options root f p).begin.traverse = (ended, none)) :
        ended.source.filename = p.toText := by
      rw [(Extraction.grows_of_traverse h).source, filename_opened]
    cases Extraction.emits_of_runOn hr with
    | untold ht hp =>
      refine ⟨hname ht, fun hm ↦ absurd ?_ hm⟩
      exact Extraction.messages_eq_nil_of_traverse (messagesDir_opened hd f p) ht hp
    | written o _ =>
      refine ⟨hname o.traverse_eq, fun _ ↦ ?_⟩
      rw [Extraction.result, hname o.traverse_eq, ← filename_opened options root f p]
      exact congrArg some (o.path_eq_ofCatalog (messagesDir_opened hd f p)).2

/-- A file in its turn leaves the places of the catalogs accounted for. -/
theorem Ends.settled (hd : options.messagesDir = some directory)
    (h : Ends options enabled root fs p v mid) (hs : fs.Settled rs emptied) :
    mid.Settled (rs ++ v.result?.toList) emptied := by
  have hnone : rs ++ (none : Option FileResult).toList = rs := List.append_nil rs
  cases h with
  | skipped _ => exact hnone.symm ▸ hs
  | unreadable _ _ => exact hnone.symm ▸ hs
  | unwritten _ _ hr =>
    cases Extraction.emits_of_runOn hr with
    | failed _ hadds => exact hnone.symm ▸ hs.of_addsDirectories hadds
  | rejected _ _ hr =>
    cases Extraction.emits_of_runOn hr with
    | failed _ hadds => exact hnone.symm ▸ hs.of_addsDirectories hadds
  | @processed f _ x r _ _ hr =>
    cases Extraction.emits_of_runOn hr with
    | untold ht hp =>
      exact hs.append_of_messages_eq_nil
        (Extraction.messages_eq_nil_of_traverse (messagesDir_opened hd f p) ht hp)
    | @written o bytes hbytes =>
      refine hs.of_written (o.extends_filesWith bytes) (o.bytesAt?_filesWith bytes)
        ⟨o.path, rfl, o.resolve_filesWith bytes⟩
        (o.path_eq_ofCatalog (messagesDir_opened hd f p)).1 ?_
      have htext : Message.dump (o.ended.result (some o.path)).messages = .ok o.text := o.text_eq
      rw [FileResult.catalogBytes?, htext]
      exact hbytes

theorem Accounts.settled (hd : options.messagesDir = some directory) {ps : List Path}
    {vs : List Verdict} (h : Accounts options enabled root fs ps vs mid) (hs : fs.Settled rs emptied) :
    mid.Settled (rs ++ vs.filterMap Verdict.result?) emptied := by
  induction h generalizing rs with
  | nil => simpa using hs
  | @cons fs next after p v ps vs hends _ ih =>
    have hnext := ih (hends.settled hd hs)
    cases hv : v.result? <;> simpa [hv] using hnext

/-- A result is new in a step only if the file in its turn has ended with it. -/
theorem mem_results_step {run : ProjectRun} {r : FileResult}
    (hr : r ∈ (run.step options enabled root p).1.tally.results) :
    r ∈ run.tally.results ∨ ∃ mid, Ends options enabled root run.files p (.processed r) mid := by
  obtain ⟨v, mid, hends⟩ | ⟨fault, hescapes⟩ := ends_or_escapes options enabled root run.files p
  · obtain ⟨logs, hstep⟩ := step_of_ends run hends
    rw [hstep] at hr
    cases v with
    | processed r' =>
      obtain hr | hr := List.mem_append.mp hr
      · exact .inl hr
      · obtain rfl := List.mem_singleton.mp hr
        exact .inr ⟨mid, hends⟩
    | skipped => exact .inl hr
    | failed message => exact .inl hr
  · obtain ⟨stopped, hstep, htally⟩ := step_of_escapes run hescapes
    rw [hstep, htally] at hr
    exact .inl hr

/-- What is no source has no messages. -/
theorem Ends.messages_eq_nil {f : File} {r : FileResult}
    (h : Ends options enabled root fs p (.processed r) mid) (hf : fs.read p = .ok f)
    (htree : f.tree = none) : r.messages = [] := by
  have htraverse : (opened options root f p).begin.traverse = ((opened options root f p).begin, none) := by
    obtain ⟨bytes, tree, data⟩ := f
    cases htree
    refine Extraction.visitAll_of_unrecognized fun kind hkind ↦ ?_
    obtain ⟨q, hq, rfl⟩ := List.mem_map.mp hkind
    -- The tree is one node of no kind.
    obtain rfl | ⟨c, hc, -⟩ := Place.mem_subtree_iff.mp hq
    · rfl
    · cases hc
  have hmessages : (opened options root f p).begin.messages = [] := by
    obtain ⟨bytes, tree, data⟩ := f
    cases htree
    rfl
  cases h with
  | @processed f' _ x _ _ hf' hr =>
    cases hf.symm.trans hf'
    cases Extraction.emits_of_runOn hr with
    | untold ht hp =>
      cases htraverse.symm.trans ht
      exact hmessages
    | written o _ =>
      have ht := htraverse.symm.trans o.traverse_eq
      rw [Extraction.result, ← (Prod.mk.inj ht).1, hmessages]

/-- A file with messages that is taken in its turn was there at the start. -/
theorem Ends.isName {first : FileSystem} {s : Sieve} {r : FileResult} (hfs : first.IsProper)
    (hevolves : first.Evolves fs) (htakes : fs.takes s p = true)
    (h : Ends options enabled root fs p (.processed r) mid) (hm : r.messages ≠ []) :
    ∀ t ∈ p.segments, Path.IsName t := by
  simp only [takes, Bool.and_eq_true, Option.any_eq_true, Bool.not_eq_true'] at htakes
  obtain ⟨⟨⟨⟨i, hi, hfile⟩, -⟩, -⟩, -⟩ := htakes
  have hface : fs.face? p.segments = some i.face := by rw [face?, hi]; rfl
  obtain hold | hdirectory | ⟨f, hf, htree⟩ := hevolves.face?_cases hface
  · exact hfs.isName (by simp [hold])
  · cases i with
    | directory items => cases hfile
    | file f => cases hdirectory
    | link target => cases hdirectory
  · -- A file that the run has written would be read here, and it is no source.
    have hdots := (hevolves.isStepless hfs.isStepless).dotDot_notMem hface
    exact absurd (h.messages_eq_nil (read_place hdots (hface.trans (congrArg some hf))) htree) hm

/-- All results with messages are of files that stand below a root. -/
def StandsBelow (run : ProjectRun) (directory : Path) (above : List Text) : Prop :=
  ∀ r ∈ run.tally.results, r.messages ≠ [] → ∃ names, r.StandsBelow directory above names

theorem standsBelow_start (fs : FileSystem) (directory : Path) (above : List Text) :
    (start fs).StandsBelow directory above := by
  simp [StandsBelow, start, Tally.empty]

theorem StandsBelow.step {first : FileSystem} {s : Sieve} {above : List Text} {run : ProjectRun}
    (h : run.StandsBelow directory above) (hd : options.messagesDir = some directory)
    (hfs : first.IsProper) (hevolves : first.Evolves run.files)
    (hp : p.IsBelow ⟨[CodePoint.slash], above⟩) (htakes : run.files.takes s p = true) :
    (run.step options enabled ⟨[CodePoint.slash], above⟩ p).1.StandsBelow directory above := by
  intro r hr hm
  obtain hr | ⟨mid, hends⟩ := mem_results_step hr
  · exact h r hr hm
  · obtain ⟨names, hne, rfl⟩ := hp
    exact ⟨names, (hends.isOf hd).standsBelow (hends.isName hfs hevolves htakes hm) hne hm⟩

theorem files_step_of_read {f : File} (run : ProjectRun) (hl : (Language.detect? enabled p).isSome)
    (hf : run.files.read p = .ok f) :
    (run.step options enabled root p).1.files = ((opened options root f p).runOn run.files root).1 := by
  rw [step_of_enabled run hl, extractFile, hf, opened]
  simp only
  rcases (Extraction.openSource (.ofFile f p.toText root) options).runOn run.files root with
    ⟨after, x, ((r | fault) | e) | r⟩ <;> rfl

/-- A file that ends a run with a fault may have emptied a place, if that fault is one of encoding. -/
theorem Escapes.settled {fault : Fault} (run : ProjectRun)
    (h : Escapes options enabled root run.files p fault) (hs : run.files.Settled rs False) :
    (run.step options enabled root p).1.files.Settled rs (fault = .unencodable) := by
  obtain ⟨hl, f, hf, hfault⟩ := h
  rw [← Extraction.runOn_eq_fault_iff] at hfault
  rw [files_step_of_read run hl hf]
  rcases hr : (opened options root f p).runOn run.files root with ⟨after, x, outcome⟩
  obtain rfl : outcome = .error (.source (.fault fault)) := by simpa [hr] using hfault
  cases Extraction.emits_of_runOn hr with
  | failed _ hadds => exact (hs.of_addsDirectories hadds).imp False.elim
  | emptied o _ => exact hs.of_emptied (o.extends_filesWith []) (o.bytesAt?_filesWith []) rfl

end ProjectRun

namespace Settings

open ProjectRun FileSystem

variable {s : Settings} {fs : FileSystem} {directory : Path} {run : ProjectRun}
  {e : Option ProjectError}

theorem extractAll_eq_of_escapes {enabled : List Language} {rules : Ignore.Rules}
    {before after : List Path} {p : Path} {vs : List Verdict} {mid : FileSystem} {fault : Fault}
    (hl : Language.enable s.languages = .ok enabled)
    (hr : Ignore.Rules.load fs (fs.canonical s.root) s.ignore = .ok rules)
    (hw : s.taken fs enabled rules = before ++ p :: after)
    (ha : Accounts s.extraction enabled (fs.canonical s.root) fs before vs mid)
    (he : Escapes s.extraction enabled (fs.canonical s.root) mid p fault) :
    ∃ last stopped : ProjectRun, last.files = mid ∧
      last.step s.extraction enabled (fs.canonical s.root) p = (stopped, some fault) ∧
      stopped.tally = .ofVerdicts vs ∧ s.extractAll fs = (stopped, some (.fault fault)) := by
  obtain ⟨logs, hs⟩ := steps_start_of_accounts ha (p :: after)
  obtain ⟨stopped, hp, ht⟩ := step_of_escapes ⟨mid, logs, .ofVerdicts vs⟩ he
  refine ⟨_, stopped, rfl, hp, ht, ?_⟩
  rw [extractAll_eq hl hr, hw, hs, ProjectRun.steps, hp]
  rfl

/-- After a run the places of its catalogs are accounted for. -/
theorem settled_of_extractAll (hd : s.extraction.messagesDir = some directory)
    (h : s.extractAll fs = (run, e)) :
    run.files.Settled run.tally.results (e = some (.fault .unencodable)) := by
  have hstart (emptied : Prop) : fs.Settled [] emptied := by simp [FileSystem.Settled]
  cases hrules : Ignore.Rules.load fs (fs.canonical s.root) s.ignore with
  | error issue =>
    have hrun : s.extractAll fs = (.start fs, some (.ignore issue)) := by
      simp only [extractAll, hrules]
    obtain ⟨rfl, rfl⟩ := Prod.mk.inj (hrun.symm.trans h)
    exact hstart _
  | ok rules =>
    cases hl : Language.enable s.languages with
    | error issue =>
      have hrun : s.extractAll fs = (.start fs, some (.language issue)) := by
        simp only [extractAll, hrules, hl]
      obtain ⟨rfl, rfl⟩ := Prod.mk.inj (hrun.symm.trans h)
      exact hstart _
    | ok enabled =>
      obtain ⟨vs, after, ha⟩ | ⟨before, p, after, vs, mid, fault, hw, ha, he⟩ :=
        accounts_or_escapes s.extraction enabled (fs.canonical s.root) fs (s.taken fs enabled rules)
      · obtain ⟨logs, hrun⟩ := extractAll_of_accounts hl hrules ha
        obtain ⟨rfl, rfl⟩ := Prod.mk.inj (hrun.symm.trans h)
        exact (ha.settled hd (hstart False)).imp False.elim
      · obtain ⟨last, stopped, rfl, hstep, htally, hrun⟩ :=
          extractAll_eq_of_escapes hl hrules hw ha he
        obtain ⟨rfl, rfl⟩ := Prod.mk.inj (hrun.symm.trans h)
        have hsettled := he.settled last (ha.settled hd (hstart False))
        rw [hstep] at hsettled
        rw [htally]
        exact hsettled.imp (by rintro rfl; rfl)

/-- The files with messages that a walk takes stand below the root of the project. -/
theorem standsBelow_of_walk (hfs : fs.IsProper) (hroot : ∀ t ∈ s.root.segments, Path.IsSegment t)
    (hd : s.extraction.messagesDir = some directory) (enabled : List Language) (rules : Ignore.Rules) :
    ∃ above, ((s.walker enabled rules (fs.canonical s.root)).walk (fs.canonical s.root)
      (.start fs)).2.1.StandsBelow directory above := by
  have hself : fs.canonical (fs.canonical s.root) = fs.canonical s.root := canonical_canonical hfs hroot
  cases hfind : fs.find? (fs.canonical s.root) with
  | none =>
    have hnothing : fs.find? (fs.canonical (fs.canonical s.root)) = none := by rw [hself, hfind]
    have hwalk : (s.walker enabled rules (fs.canonical s.root)).walk (fs.canonical s.root) (.start fs) =
        ([], .start fs, none) :=
      Walker.walk_of_find?_eq_none hnothing
    rw [hwalk]
    exact ⟨[], standsBelow_start fs directory []⟩
  | some i =>
    obtain ⟨above, hcanonical, -⟩ := canonical_of_find? hfs hroot hfind
    have htakes : Walker.Takes _ (fs.canonical (fs.canonical s.root)) _ _ _ _ :=
      (s.walker enabled rules (fs.canonical s.root)).takes_walk (fs.canonical s.root) (.start fs)
    rw [hself, hcanonical] at htakes
    have hkept (run : ProjectRun) (p : Path)
        (hrun : fs.Evolves run.files ∧ run.StandsBelow directory above)
        (hp : p.IsBelow ⟨[CodePoint.slash], above⟩)
        (htaken : run.files.takes (s.sieve run.files rules) p = true) :
        fs.Evolves (run.step s.extraction enabled ⟨[CodePoint.slash], above⟩ p).1.files ∧
          (run.step s.extraction enabled ⟨[CodePoint.slash], above⟩ p).1.StandsBelow directory above :=
      ⟨hrun.1.trans (run.evolves_step s.extraction enabled _ p), hrun.2.step hd hfs hrun.1 hp htaken⟩
    rw [hcanonical]
    exact ⟨above, (htakes.keeps hkept ⟨.refl, standsBelow_start fs directory above⟩).2⟩

theorem standsBelow_of_extractAll (hfs : fs.IsProper)
    (hroot : ∀ t ∈ s.root.segments, Path.IsSegment t)
    (hd : s.extraction.messagesDir = some directory) (h : s.extractAll fs = (run, e)) :
    ∃ above, run.StandsBelow directory above := by
  obtain rfl : (s.extractAll fs).1 = run := congrArg Prod.fst h
  rw [extractAll]
  cases Ignore.Rules.load fs (fs.canonical s.root) s.ignore with
  | error issue => exact ⟨[], standsBelow_start fs directory []⟩
  | ok rules =>
    cases Language.enable s.languages with
    | error issue => exact ⟨[], standsBelow_start fs directory []⟩
    | ok enabled => exact standsBelow_of_walk hfs hroot hd enabled rules

/-- Over a project with a directory for messages, the catalogs of two files with messages have one path
exactly when the files stand in one directory and have one name up to its suffix. What is found at the
path of a catalog is the catalog of a file whose path leads to the same place, or nothing at all if a
text without bytes has ended the run; without that, every file finds its own exactly when those that
share a place have the same. Where there are no links, only those with one path share a place. -/
theorem catalogs_found_iff (hfs : fs.IsProper) (hroot : ∀ t ∈ s.root.segments, Path.IsSegment t)
    (hd : s.extraction.messagesDir = some directory) (h : s.extractAll fs = (run, e)) :
    let told := run.tally.results.filter fun r ↦ !r.messages.isEmpty
    (∀ r ∈ told, ∀ r' ∈ told, r.output = r'.output ↔ r.Doubles r') ∧
      (∀ r ∈ told,
        (∃ r' ∈ told, r.SharesPlace run.files r' ∧ run.files.Finds r r') ∨
          e = some (.fault .unencodable) ∧ run.files.catalogOf? r = some []) ∧
      (e ≠ some (.fault .unencodable) → ((∀ r ∈ told, run.files.Finds r r) ↔
        ∀ r ∈ told, ∀ r' ∈ told, r.SharesPlace run.files r' → r.catalogBytes? = r'.catalogBytes?)) ∧
      (run.files.IsUnlinked directory →
        ∀ r ∈ told, ∀ r' ∈ told, r.SharesPlace run.files r' ↔ r.Doubles r') := by
  have hsettled := settled_of_extractAll hd h
  obtain ⟨above, hbelow⟩ := standsBelow_of_extractAll hfs hroot hd h
  intro told
  have htold {r : FileResult} : r ∈ told ↔ r ∈ run.tally.results ∧ r.messages ≠ [] := by
    simp [told]
  have hdoubles : ∀ r ∈ told, ∀ r' ∈ told, r.output = r'.output ↔ r.Doubles r' := by
    intro r hr r' hr'
    obtain ⟨names, hstands⟩ := hbelow r (htold.mp hr).1 (htold.mp hr).2
    obtain ⟨names', hstands'⟩ := hbelow r' (htold.mp hr').1 (htold.mp hr').2
    exact hstands.output_eq_iff hstands'
  refine ⟨hdoubles, fun r hr ↦ ?_, fun he ↦ ?_, fun hlinks r hr r' hr' ↦ ?_⟩
  · obtain ⟨hr, hm⟩ := htold.mp hr
    obtain ⟨r', hr', hm', hfound⟩ | hemptied := hsettled.catalogOf?_cases hr hm
    · exact .inl ⟨r', htold.mpr ⟨hr', hm'⟩, hfound⟩
    · exact .inr hemptied
  · simpa only [htold, and_imp] using hsettled.finds_iff he
  · rw [← hdoubles r hr r' hr']
    obtain ⟨hr, hm⟩ := htold.mp hr
    obtain ⟨hr', hm'⟩ := htold.mp hr'
    obtain ⟨names, hstands⟩ := hbelow r hr hm
    obtain ⟨names', hstands'⟩ := hbelow r' hr' hm'
    refine ⟨hlinks.output_eq hstands hstands', fun houtput ↦ ?_⟩
    obtain ⟨-, q, ⟨out, hout, hq⟩, -⟩ := hsettled r hr hm
    exact ⟨q, ⟨out, hout, hq⟩, ⟨out, houtput ▸ hout, hq⟩⟩

end Settings

section TwoCalls

def letterCall (letter : Text) : File := stringCall letter [.leaf "string_fragment" 19 20]

def twoItems (name : Text) : List (Text × Item) :=
  [("a.js", .file (letterCall "a")), (name, .file (letterCall "b"))]

def twoCalls (name : Text) : FileSystem := ⟨.directory [("proj", .directory (twoItems name))]⟩

def catalogSettings : Settings := { projectSettings with extraction := catalogOptions }

def twoRules (name : Text) : Ignore.Rules :=
  (Ignore.Rules.load (twoCalls name) projectRoot .standard).toOption.getD ⟨projectRoot, []⟩

def twoSteps (name : Text) : ProjectRun × Option Fault :=
  (ProjectRun.start (twoCalls name)).steps catalogOptions Language.all projectRoot
    [callPath, projectRoot.child name]

theorem canonical_twoCalls (name : Text) :
    (twoCalls name).canonical catalogSettings.root = projectRoot := rfl

theorem isProper_twoCalls {name : Text} (h : Path.IsName name) : (twoCalls name).IsProper := by
  simp only [FileSystem.IsProper, twoCalls, twoItems, Item.IsProper, Item.AreProper, and_true]
  exact ⟨by decide, by decide, trivial, h⟩

theorem isDistinct_twoCalls {name : Text} (h : "a.js" ≠ name) : (twoCalls name).IsDistinct := by
  have hfile (f : File) : (Item.file f).IsDistinct := Item.isDistinct_bare trivial
  refine Item.isDistinct_directory (by simp) ?_
  simp only [List.mem_singleton, forall_eq]
  refine Item.isDistinct_directory (by simpa [twoItems] using h) ?_
  simp [twoItems, hfile]

theorem isLinkless_twoCalls (name : Text) : (twoCalls name).IsLinkless := by
  have hfile (f : File) : (Item.file f).IsLinkless := by
    intro q target hq
    cases q <;> cases hq
  refine FileSystem.isLinkless_of_top (Item.isLinkless_directory ?_)
  simp only [List.mem_singleton, forall_eq]
  exact Item.isLinkless_directory (by simp [twoItems, hfile])

theorem walked_twoCalls {name : Text} (hsorted : Text.le "a.js" name = true)
    (hkept : ((twoItems name).filterMap fun (n, i) ↦ (twoCalls name).foundFile?
      (catalogSettings.sieve (twoCalls name) (twoRules name)) projectRoot n i).map (·.path) =
        [callPath, projectRoot.child name]) :
    catalogSettings.walked (twoCalls name) (twoRules name) = [callPath, projectRoot.child name] := by
  -- The sort does not reduce, but what is in order stays so.
  have hown : FileSystem.byName (twoItems name) = twoItems name :=
    List.mergeSort_of_pairwise (by simpa [twoItems] using hsorted)
  have hfind : (twoCalls name).find? projectRoot = some (.directory (twoItems name)) := rfl
  have hcanonical : (twoCalls name).canonical projectRoot = projectRoot := rfl
  have hbelow (sieve : Sieve) :
      (twoCalls name).filesByName sieve projectRoot (twoItems name) = [] := by
    simp [twoItems, FileSystem.filesByName, Item.isDirectory]
  rw [Settings.walked, canonical_twoCalls, FileSystem.walk]
  simp only [hcanonical, hfind, FileSystem.filesBelow, hbelow, FileSystem.ownFiles, hown]
  rw [FileSystem.inOrder, FileSystem.byName, List.mergeSort_nil, List.map_nil, List.flatten_nil,
    List.append_nil]
  exact hkept

theorem extractAll_twoCalls {name : Text} (hname : Path.IsName name) (hne : "a.js" ≠ name)
    (hload : (Ignore.Rules.load (twoCalls name) projectRoot .standard).toOption.isSome = true)
    (hwalked : catalogSettings.walked (twoCalls name) (twoRules name) =
      [callPath, projectRoot.child name]) :
    catalogSettings.extractAll (twoCalls name) =
      ((twoSteps name).1, (twoSteps name).2.map .fault) := by
  have hl : Language.enable catalogSettings.languages = .ok Language.all := by cbv
  have hr : Ignore.Rules.load (twoCalls name) projectRoot .standard = .ok (twoRules name) := by
    rw [twoRules]
    cases h : Ignore.Rules.load (twoCalls name) projectRoot .standard with
    | error e => simp [h, Except.toOption] at hload
    | ok rules => rfl
  rw [Settings.extractAll_eq_walked (isProper_twoCalls hname).isStepless (isDistinct_twoCalls hne)
    (isLinkless_twoCalls name) hl (by rw [canonical_twoCalls]; exact hr), canonical_twoCalls, hwalked]
  rfl

theorem results_twoSteps (name : Text) (p p' : Path)
    (h : (twoSteps name).1.tally.results.map (fun r ↦ (r.output, r.messages.isEmpty)) =
      [(some p, false), (some p', false)]) :
    ∃ r r', (twoSteps name).1.tally.results = [r, r'] ∧
      (r.output = some p ∧ r.messages ≠ []) ∧ r'.output = some p' ∧ r'.messages ≠ [] := by
  obtain ⟨r, r', hr⟩ := List.length_eq_two.mp (by simpa using congrArg List.length h)
  simp only [hr, List.map_cons, List.map_nil, List.cons.injEq, Prod.mk.injEq,
    List.isEmpty_eq_false_iff, and_true] at h
  exact ⟨r, r', hr, h⟩

def catalogPath (name : Text) : Path := (projectRoot.child "messages").child name

/-- Files whose names differ in more than the suffix find their catalogs. -/
theorem twoCalls_both_found : ∃ run r r', catalogSettings.extractAll (twoCalls "b.ts") = (run, none) ∧
    run.tally.results = [r, r'] ∧ r.messages ≠ [] ∧ r'.messages ≠ [] ∧
    run.files.Finds r r ∧ run.files.Finds r' r' := by
  have hrun : catalogSettings.extractAll (twoCalls "b.ts") = ((twoSteps "b.ts").1, none) := by
    have hend : (twoSteps "b.ts").2 = none := by decide +kernel
    rw [extractAll_twoCalls (by decide) (by decide) (by decide +kernel)
      (walked_twoCalls (by decide) (by decide +kernel)), hend]
    rfl
  obtain ⟨r, r', hr, ⟨hout, hm⟩, hout', hm'⟩ :=
    results_twoSteps "b.ts" (catalogPath "a.json") (catalogPath "b.json") (by decide +kernel)
  have hapart : ¬r.SharesPlace (twoSteps "b.ts").1.files r' := by
    rintro ⟨q, ⟨p, hp, hq⟩, p', hp', hq'⟩
    obtain rfl := Option.some.inj (hout.symm.trans hp)
    obtain rfl := Option.some.inj (hout'.symm.trans hp')
    exact absurd (hq.trans hq'.symm) (by decide +kernel)
  have hfound := (Settings.catalogs_found_iff (isProper_twoCalls (by decide)) (by decide) rfl hrun).2.2.1 (by decide)
  simp only [hr, List.filter_cons, List.isEmpty_eq_false_iff.mpr hm,
    List.isEmpty_eq_false_iff.mpr hm', Bool.not_false, if_true, List.filter_nil, List.mem_cons,
    List.not_mem_nil, or_false, forall_eq_or_imp, forall_eq] at hfound
  have hsame : ¬r'.SharesPlace (twoSteps "b.ts").1.files r := fun ⟨q, hq, hq'⟩ ↦ hapart ⟨q, hq', hq⟩
  obtain ⟨hfinds, hfinds'⟩ := hfound.mpr
    ⟨⟨fun _ ↦ trivial, fun h ↦ absurd h hapart⟩, fun h ↦ absurd h hsame, fun _ ↦ trivial⟩
  exact ⟨_, r, r', hrun, hr, hm, hm', hfinds, hfinds'⟩

/-- Of files whose names differ in the suffix alone the first one loses its catalog to the second. -/
theorem twoCalls_first_lost : ∃ run r r', catalogSettings.extractAll (twoCalls "a.ts") = (run, none) ∧
    run.tally.results = [r, r'] ∧ r.messages ≠ [] ∧ r'.messages ≠ [] ∧ r.filename ≠ r'.filename ∧
    r.output = r'.output ∧ ¬run.files.Finds r r := by
  have hrun : catalogSettings.extractAll (twoCalls "a.ts") = ((twoSteps "a.ts").1, none) := by
    have hend : (twoSteps "a.ts").2 = none := by decide +kernel
    rw [extractAll_twoCalls (by decide) (by decide) (by decide +kernel)
      (walked_twoCalls (by decide) (by decide +kernel)), hend]
    rfl
  obtain ⟨r, r', hr, ⟨hout, hm⟩, hout', hm'⟩ :=
    results_twoSteps "a.ts" (catalogPath "a.json") (catalogPath "a.json") (by decide +kernel)
  have hnames : (twoSteps "a.ts").1.tally.results.map (·.filename) =
      [callPath.toText, (projectRoot.child "a.ts").toText] := by decide +kernel
  have hlost : (twoSteps "a.ts").1.tally.results.map
      (fun r ↦ (twoSteps "a.ts").1.files.catalogOf? r == r.catalogBytes?) = [false, true] := by
    decide +kernel
  simp only [hr, List.map_cons, List.map_nil, List.cons.injEq, and_true] at hnames hlost
  refine ⟨_, r, r', hrun, hr, hm, hm', ?_, hout.trans hout'.symm, ?_⟩
  · rw [hnames.1, hnames.2]
    decide
  · rintro ⟨bytes, hbytes, hfound⟩
    exact absurd (hfound.trans hbytes.symm) (beq_eq_false_iff_ne.mp hlost.1)

end TwoCalls

end MessageExtraction
