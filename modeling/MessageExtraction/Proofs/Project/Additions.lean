import MessageExtraction.Proofs.Ignore.Defaults
import MessageExtraction.Proofs.Project.Emission
import MessageExtraction.Proofs.Project.WalkOrder

/-!
What a run adds to the files around it: directories where nothing stood, and files under the names of
catalogs. Neither is ever walked, so that a run over the same project finds the same sources; and its
ignore rules are the same too, unless a directory was made under the name of the file that holds them.
-/

namespace MessageExtraction

/-- A name that a catalog can have. -/
def Path.IsCatalogName (name : Text) : Prop := ∃ stem, name = stem ++ (".json" : Text)

theorem Path.splitName_json (stem : Text) :
    (splitName (stem ++ (".json" : Text))).2 = ".json" ∨ (splitName (stem ++ (".json" : Text))).2 = [] := by
  have hending : ((stem ++ (".json" : Text)).reverse.takeWhile (· != CodePoint.period)).length = 4 := by
    rw [List.reverse_append]
    rfl
  have hlength : List.length (Text.ofString ".json") = 5 := by decide
  rw [splitName]
  simp only [hending]
  split
  · left
    simp [hlength]
  · exact .inr rfl

/-- A catalog is in no language. -/
theorem Language.ofPath?_of_isCatalogName {p : Path} (h : Path.IsCatalogName p.name) :
    ofPath? p = none := by
  obtain ⟨stem, hname⟩ := h
  have hnone (suffix : Text) (h : suffix = ".json" ∨ suffix = []) :
      (all.find? fun l ↦ l.extensions.any fun e ↦ Text.ofString e == Text.lower suffix) = none := by
    rcases h with rfl | rfl <;> decide
  refine hnone p.suffix ?_
  rw [Path.suffix, hname]
  exact Path.splitName_json stem

namespace FileSystem

variable {fs mid fs' : FileSystem} {p : Path} {place above q names : List Text} {name : Text}
  {demand : Demand}

/-- From some files to others nothing changes its kind, and a file that is new or has changed is under
the name of a catalog. -/
structure AddsCatalogs (fs fs' : FileSystem) : Prop extends Extends fs fs' where
  catalog : ∀ q f, fs'.face? q = some (.file f) →
    fs.face? q = some (.file f) ∨ ∃ above name, q = above ++ [name] ∧ Path.IsCatalogName name

theorem AddsCatalogs.refl (fs : FileSystem) : fs.AddsCatalogs fs where
  toExtends := .refl fs
  catalog _ _ h := .inl h

theorem AddsCatalogs.trans (h : fs.AddsCatalogs mid) (h' : mid.AddsCatalogs fs') :
    fs.AddsCatalogs fs' where
  toExtends := h.toExtends.trans h'.toExtends
  catalog q f hq := (h'.catalog q f hq).elim (h.catalog q f) .inr

theorem AddsDirectories.addsCatalogs (h : fs.AddsDirectories fs') : fs.AddsCatalogs fs' where
  toExtends := h.extends
  catalog q f hq := by
    obtain hsame | ⟨-, hnew⟩ := h q
    · exact .inl (hsame ▸ hq)
    · rw [hnew] at hq
      cases hq

theorem TakesFile.addsCatalogs (h : fs.TakesFile (above ++ [name])) (hname : Path.IsCatalogName name)
    (f : File) : fs.AddsCatalogs (fs.set (above ++ [name]) (.file f)) where
  toExtends := h.extends_set
  catalog q g hq := by
    rw [h.face?_set, Function.update_apply] at hq
    split at hq
    · exact .inr ⟨above, name, ‹_›, hname⟩
    · exact .inl hq

theorem AddsCatalogs.face?_eq_file_iff (h : fs.AddsCatalogs fs') {f : File}
    (hname : ¬Path.IsCatalogName name) :
    fs'.face? (above ++ [name]) = some (.file f) ↔ fs.face? (above ++ [name]) = some (.file f) := by
  have hold {g : File} (hg : fs'.face? (above ++ [name]) = some (.file g)) :
      fs.face? (above ++ [name]) = some (.file g) := by
    obtain hg | ⟨above', name', heq, hcatalog⟩ := h.catalog _ g hg
    · exact hg
    · obtain ⟨-, hlast⟩ := List.append_inj' heq rfl
      cases hlast
      exact absurd hcatalog hname
  refine ⟨hold, fun hf ↦ ?_⟩
  obtain ⟨g, hg⟩ := h.file _ f hf
  rw [hg, ← hf, hold hg]

end FileSystem

namespace Extraction

variable {x : Extraction} {fs : FileSystem} {cwd p : Path}

/-- A catalog stands under the name of one, in the directory for it. -/
theorem exists_of_catalogPath? (h : x.catalogPath? cwd = some p) :
    ∃ root names name, p = ⟨root, names ++ [name]⟩ ∧ Path.IsCatalogName name ∧ name ≠ Path.dotDot := by
  rw [catalogPath?] at h
  split at h
  · cases h
  · obtain ⟨directory, -, rfl⟩ := Option.map_eq_some_iff.mp h
    refine ⟨_, _, _, rfl, ⟨_, rfl⟩, fun hdots ↦ ?_⟩
    exact Path.dotDot_notMem_catalog (List.forall_mem_nil _) _ (List.mem_singleton.mpr hdots.symm)

theorem Opening.addsCatalogs (o : x.Opening fs cwd) (hl : fs.IsLinkless) (bytes : Bytes) :
    fs.AddsCatalogs (o.filesWith bytes) := by
  obtain ⟨root, names, name, hpath, hname, hdots⟩ := exists_of_catalogPath? o.path_eq
  have hmade : o.made.IsLinkless := hl.of_extends o.addsDirectories.extends
  have hresolve := FileSystem.resolve_of_writable o.place_eq
  rw [hpath, hmade.resolve_eq_ok_iff] at hresolve
  obtain ⟨above, hplace⟩ := FileSystem.last_of_advance hdots hresolve
  have htakes := o.takesFile
  rw [hplace] at htakes
  refine o.addsDirectories.addsCatalogs.trans ?_
  rw [Opening.filesWith, hplace]
  exact htakes.addsCatalogs hname _

end Extraction

namespace ProjectRun

variable {options : Options} {enabled : List Language} {root p : Path} {fs mid after : FileSystem}
  {v : Verdict} {ps : List Path} {vs : List Verdict}

/-- The files around change only when a file is extracted. -/
theorem Ends.files_cases (h : Ends options enabled root fs p v mid) :
    mid = fs ∨ ∃ (x y : Extraction) (outcome : Except FileFailure FileResult),
      x.runOn fs root = (mid, y, outcome) := by
  cases h with
  | skipped _ => exact .inl rfl
  | unreadable _ _ => exact .inl rfl
  | processed _ _ hr => exact .inr ⟨_, _, _, hr⟩
  | unwritten _ _ hr => exact .inr ⟨_, _, _, hr⟩
  | rejected _ _ hr => exact .inr ⟨_, _, _, hr⟩

theorem Ends.addsCatalogs (h : Ends options enabled root fs p v mid) (hl : fs.IsLinkless) :
    fs.AddsCatalogs mid := by
  rcases h.files_cases with rfl | ⟨x, y, outcome, hr⟩
  · exact .refl mid
  · cases Extraction.emits_of_runOn hr with
    | failed _ hadds => exact hadds.addsCatalogs
    | untold _ _ => exact .refl fs
    | @written o bytes _ => exact o.addsCatalogs hl bytes
    | emptied o _ => exact o.addsCatalogs hl []

theorem Accounts.addsCatalogs (h : Accounts options enabled root fs ps vs after) (hl : fs.IsLinkless) :
    fs.AddsCatalogs after := by
  induction h with
  | nil => exact .refl _
  | cons hends _ ih =>
    have hadds := hends.addsCatalogs hl
    exact hadds.trans (ih (hl.of_extends hadds.toExtends))

end ProjectRun

namespace Settings

open FileSystem

variable {s : Settings} {fs fs' : FileSystem} {rules : Ignore.Rules} {names above : List Text}
  {name root : Text} {g : File} {p : Path}

theorem not_isCatalogName_of_wants
    (h : (s.sieve fs rules).wants (Language.ofPath? ⟨root, above ++ [name]⟩) = true) :
    ¬Path.IsCatalogName name := by
  intro hname
  have hlast : Path.name ⟨root, above ++ [name]⟩ = name := by simp [Path.name]
  rw [Language.ofPath?_of_isCatalogName (hlast.symm ▸ hname)] at h
  simp [sieve, Sieve.wants] at h

theorem not_isCatalogName_of_keeps (h : (s.sieve fs rules).Keeps ⟨root, above ++ [name]⟩ g) :
    ¬Path.IsCatalogName name :=
  not_isCatalogName_of_wants h.2.2

theorem keeps_sieve_iff (hnames : Path.dotDot ∉ names) (hl : fs.IsLinkless) (hl' : fs'.IsLinkless)
    (hf : fs.face? names = some (.file g)) (hf' : fs'.face? names = some (.file g)) :
    (s.sieve fs' rules).Keeps ⟨root, names⟩ g ↔ (s.sieve fs rules).Keeps ⟨root, names⟩ g := by
  simp only [Sieve.Keeps, sieve, Ignore.Rules.ignores, hl.isDirectory_file hnames hf,
    hl'.isDirectory_file hnames hf']
  rfl

theorem enters_sieve_iff (fs fs' : FileSystem) {directory : Path} :
    (s.sieve fs' rules).Enters directory names ↔ (s.sieve fs rules).Enters directory names := by
  induction names generalizing directory with
  | nil => simp [Sieve.Enters]
  | cons name names ih =>
    by_cases hne : names = []
    · simp [hne, Sieve.Enters]
    · rw [Sieve.enters_cons hne, Sieve.enters_cons hne, ih]
      simp [sieve, Ignore.Rules.ignores]

/-- The files of a project that a walk finds. -/
def walked (s : Settings) (fs : FileSystem) (rules : Ignore.Rules) : List Path :=
  (fs.walk (s.sieve fs rules) (fs.canonical s.root)).map (·.path)

/-- What a run adds does not change what a walk finds, in whatever directory it starts. -/
theorem walk_of_addsCatalogs (hfs : fs.IsStepless) (hd : fs.IsDistinct) (hl : fs.IsLinkless)
    (hd' : fs'.IsDistinct) (h : fs.AddsCatalogs fs') (rules : Ignore.Rules) {place : List Text}
    (hplace : Path.dotDot ∉ place) :
    fs'.walk (s.sieve fs' rules) ⟨[CodePoint.slash], place⟩ =
      fs.walk (s.sieve fs rules) ⟨[CodePoint.slash], place⟩ := by
  have hl' := hl.of_extends h.toExtends
  refine eq_of_pairwise_earlier (pairwise_walk hd' hl' hplace) (pairwise_walk hd hl hplace) ?_
  intro f
  rw [mem_walk_iff hd' hl' hplace, mem_walk_iff hd hl hplace]
  refine exists_congr fun names ↦ exists_congr fun g ↦ and_congr_right fun hne ↦ ?_
  obtain ⟨above, name, rfl⟩ := (List.eq_nil_or_concat names).resolve_left hne
  rw [List.concat_eq_append, ← List.append_assoc, enters_sieve_iff fs fs']
  constructor
  · intro ⟨hf', henters, hkeeps, hfound⟩
    have hf := (h.face?_eq_file_iff (not_isCatalogName_of_keeps hkeeps)).mp hf'
    exact ⟨hf, henters, (keeps_sieve_iff (hfs.dotDot_notMem hf) hl hl' hf hf').mp hkeeps, hfound⟩
  · intro ⟨hf, henters, hkeeps, hfound⟩
    have hf' := (h.face?_eq_file_iff (not_isCatalogName_of_keeps hkeeps)).mpr hf
    exact ⟨hf', henters, (keeps_sieve_iff (hfs.dotDot_notMem hf) hl hl' hf hf').mpr hkeeps, hfound⟩

/-- What a run adds does not change which files are walked. -/
theorem walked_of_addsCatalogs (hfs : fs.IsStepless) (hd : fs.IsDistinct) (hl : fs.IsLinkless)
    (hd' : fs'.IsDistinct) (h : fs.AddsCatalogs fs') (rules : Ignore.Rules) :
    s.walked fs' rules = s.walked fs rules := by
  obtain ⟨place, hroot, hplace⟩ := hl.exists_canonical_eq s.root
  rw [walked, walked, (hl.of_extends h.toExtends).canonical_eq hl, hroot,
    walk_of_addsCatalogs hfs hd hl hd' h rules hplace]

/-- A file that is walked stands under a name that no catalog has. -/
theorem place_of_walked (hfs : fs.IsStepless) (hd : fs.IsDistinct) (hl : fs.IsLinkless)
    (hp : p ∈ s.walked fs rules) :
    ∃ above name g, p = ⟨[CodePoint.slash], above ++ [name]⟩ ∧ Path.dotDot ∉ above ++ [name] ∧
      ¬Path.IsCatalogName name ∧ fs.face? (above ++ [name]) = some (.file g) := by
  obtain ⟨place, hroot, hplace⟩ := hl.exists_canonical_eq s.root
  rw [walked, hroot] at hp
  obtain ⟨f, hf, rfl⟩ := List.mem_map.mp hp
  obtain ⟨names, g, hne, hface, -, hkeeps, rfl⟩ := (mem_walk_iff hd hl hplace).mp hf
  obtain ⟨above, name, rfl⟩ := (List.eq_nil_or_concat names).resolve_left hne
  rw [List.concat_eq_append, ← List.append_assoc] at hface hkeeps ⊢
  exact ⟨place ++ above, name, g, rfl, hfs.dotDot_notMem hface, not_isCatalogName_of_keeps hkeeps, hface⟩

/-- What a run adds leaves the files that are walked as they are. -/
theorem read_of_walked (hfs : fs.IsStepless) (hd : fs.IsDistinct) (hl : fs.IsLinkless)
    (hp : p ∈ s.walked fs rules) : ∃ g, ∀ fs', fs.AddsCatalogs fs' → fs'.read p = .ok g := by
  obtain ⟨above, name, g, rfl, hdots, hname, hface⟩ := place_of_walked hfs hd hl hp
  refine ⟨g, fun fs' h ↦ ?_⟩
  exact read_place hdots ((h.face?_eq_file_iff hname).mpr hface)

end Settings

namespace Ignore

open FileSystem

variable {fs fs' : FileSystem} {i : Settings} {above : List Text} {name root : Text}
  {lines lines' : List Text} {p : Path}

/-- The files in the directory of a project that lines are taken from. -/
def Settings.paths (i : Settings) (root : Path) : List Path :=
  (if i.useGitignore then [root.child gitignoreName] else []) ++
    if i.useOwnFile then [root.child ownName] else []

theorem linesOf_of_face? (hl : fs.IsLinkless) (hdots : Path.dotDot ∉ above ++ [name]) (root : Text) :
    linesOf fs ⟨root, above ++ [name]⟩ =
      match fs.face? (above ++ [name]) with
      | none => .ok []
      | some (.file f) => do
        let t ← (Utf8.decode f.bytes).mapError fun e ↦ .fault (.undecodable e)
        return meaningful t
      | some _ => .error (.file ⟨.isDirectory, ⟨root, above ++ [name]⟩⟩) := by
  rw [linesOf, FileSystem.contains, hl.find?_place hdots]
  cases hface : fs.face? (above ++ [name]) with
  | none => rw [Option.map_eq_none_iff.mp hface]; rfl
  | some face =>
    have hresolve : fs.resolve .whole ⟨root, above ++ [name]⟩ = .ok (above ++ [name]) :=
      hl.resolve_place hdots (by simp [hface])
    obtain ⟨j, hj, rfl⟩ := Option.map_eq_some_iff.mp hface
    rw [FileSystem.read, hresolve]
    cases j <;> simp only [hj, Option.isSome_some, if_true, Item.face] <;> rfl

theorem linesOf_again_iff (hl : fs.IsLinkless) (h : fs.AddsCatalogs fs')
    (hdots : Path.dotDot ∉ above ++ [name]) (hname : ¬Path.IsCatalogName name)
    (hlines : linesOf fs ⟨root, above ++ [name]⟩ = .ok lines) :
    linesOf fs' ⟨root, above ++ [name]⟩ = .ok lines' ↔ lines' = lines ∧
      (fs'.contains ⟨root, above ++ [name]⟩ = true → fs.contains ⟨root, above ++ [name]⟩ = true) := by
  have hl' := hl.of_extends h.toExtends
  have hcontains {fs : FileSystem} (hl : fs.IsLinkless) :
      fs.contains ⟨root, above ++ [name]⟩ = (fs.face? (above ++ [name])).isSome := by
    rw [FileSystem.contains, hl.find?_place hdots, face?, Option.isSome_map]
  rw [hcontains hl, hcontains hl']
  rw [linesOf_of_face? hl hdots root] at hlines
  rw [linesOf_of_face? hl' hdots root]
  cases hface : fs.face? (above ++ [name]) with
  | none =>
    obtain rfl : lines = [] := by
      rw [hface] at hlines
      exact (Except.ok.inj hlines).symm
    cases hface' : fs'.face? (above ++ [name]) with
    | none => simp [eq_comm]
    | some face =>
      cases face with
      | directory => simp
      | link target => exact absurd hface' (hl' _ target)
      | file f =>
        rw [h.face?_eq_file_iff hname, hface] at hface'
        cases hface'
  | some face =>
    cases face with
    | directory =>
      rw [hface] at hlines
      cases hlines
    | link target => exact absurd hface (hl _ target)
    | file f =>
      rw [(h.face?_eq_file_iff hname).mpr hface]
      rw [hface] at hlines
      simp only at hlines ⊢
      rw [hlines]
      simp [eq_comm]

theorem linesIf_again_iff (hl : fs.IsLinkless) (h : fs.AddsCatalogs fs')
    (hdots : Path.dotDot ∉ above ++ [name]) (hname : ¬Path.IsCatalogName name) {isWanted : Bool}
    (hlines : linesIf isWanted fs ⟨root, above ++ [name]⟩ = .ok lines) :
    linesIf isWanted fs' ⟨root, above ++ [name]⟩ = .ok lines' ↔ lines' = lines ∧
      ∀ q ∈ if isWanted then [(⟨root, above ++ [name]⟩ : Path)] else [],
        fs'.contains q = true → fs.contains q = true := by
  cases isWanted with
  | false =>
    obtain rfl := Except.ok.inj hlines
    constructor
    · intro hlines'
      exact ⟨(Except.ok.inj hlines').symm, by simp⟩
    · rintro ⟨rfl, -⟩
      rfl
  | true => simpa [linesIf] using linesOf_again_iff hl h hdots hname hlines

theorem addedLines_eq_ok_iff {root : Path} : addedLines fs root i = .ok lines ↔ ∃ shared own,
    linesIf i.useGitignore fs ((fs.canonical root).child gitignoreName) = .ok shared ∧
      linesIf i.useOwnFile fs ((fs.canonical root).child ownName) = .ok own ∧
      lines = shared ++ own ++ i.extraPatterns := by
  rw [addedLines, bind_eq_ok]
  refine exists_congr fun shared ↦ ?_
  rw [bind_eq_ok, ← exists_and_left]
  refine exists_congr fun own ↦ and_congr_right fun _ ↦ and_congr_right fun _ ↦ ?_
  rw [pure_eq_ok, eq_comm]

theorem not_isCatalogName_of_rules :
    ¬Path.IsCatalogName gitignoreName ∧ ¬Path.IsCatalogName ownName := by
  have hlast {name : Text} (h : Path.IsCatalogName name) : name.getLast? = some 'n'.toNat := by
    obtain ⟨stem, rfl⟩ := h
    rw [List.getLast?_append_of_ne_nil _ (by decide)]
    rfl
  constructor <;>
  · intro h
    exact absurd (hlast h) (by decide)

theorem addedLines_again_iff (hl : fs.IsLinkless) (h : fs.AddsCatalogs fs') {place : List Text}
    (hplace : Path.dotDot ∉ place) (hlines : addedLines fs ⟨[CodePoint.slash], place⟩ i = .ok lines) :
    addedLines fs' ⟨[CodePoint.slash], place⟩ i = .ok lines' ↔ lines' = lines ∧
      ∀ q ∈ i.paths ⟨[CodePoint.slash], place⟩, fs'.contains q = true → fs.contains q = true := by
  have hl' := hl.of_extends h.toExtends
  have hdots : Path.dotDot ∉ place ++ [gitignoreName] ∧ Path.dotDot ∉ place ++ [ownName] := by
    constructor <;>
    · rw [List.mem_append, not_or]
      exact ⟨hplace, by decide⟩
  obtain ⟨hgit, hown⟩ := not_isCatalogName_of_rules
  obtain ⟨shared, own, hshared, hlast, rfl⟩ := addedLines_eq_ok_iff.mp hlines
  rw [hl.canonical_place hplace] at hshared hlast
  rw [addedLines_eq_ok_iff, hl'.canonical_place hplace]
  constructor
  · rintro ⟨shared', own', hshared', hlast', rfl⟩
    obtain ⟨rfl, hkept⟩ := (linesIf_again_iff hl h hdots.1 hgit hshared).mp hshared'
    obtain ⟨rfl, hkept'⟩ := (linesIf_again_iff hl h hdots.2 hown hlast).mp hlast'
    exact ⟨rfl, List.forall_mem_append.mpr ⟨hkept, hkept'⟩⟩
  · rintro ⟨rfl, hkept⟩
    obtain ⟨hkept, hkept'⟩ := List.forall_mem_append.mp hkept
    exact ⟨shared, own, (linesIf_again_iff hl h hdots.1 hgit hshared).mpr ⟨rfl, hkept⟩,
      (linesIf_again_iff hl h hdots.2 hown hlast).mpr ⟨rfl, hkept'⟩, rfl⟩

/-- What a run adds leaves the rules of a project as they are, unless something stands now under the
name of a file for them where nothing did: then they cannot be read. -/
theorem Rules.load_again_iff (hl : fs.IsLinkless) (h : fs.AddsCatalogs fs') {rules rules' : Rules}
    (hload : load fs (fs.canonical p) i = .ok rules) :
    load fs' (fs'.canonical p) i = .ok rules' ↔ rules' = rules ∧
      ∀ q ∈ i.paths (fs.canonical p), fs'.contains q = true → fs.contains q = true := by
  have hl' := hl.of_extends h.toExtends
  obtain ⟨place, hroot, hplace⟩ := hl.exists_canonical_eq p
  rw [hl'.canonical_eq hl, hroot]
  rw [hroot] at hload
  obtain ⟨lines, hlines, hrules, hall⟩ := load_eq_ok_iff.mp hload
  rw [hl.canonical_place hplace] at hrules
  rw [load_eq_ok_iff]
  simp only [addedLines_again_iff hl h hplace hlines, hl'.canonical_place hplace]
  constructor
  · rintro ⟨_, ⟨rfl, hkept⟩, hrules', hall'⟩
    rw [hall] at hall'
    obtain ⟨root, rs⟩ := rules
    obtain ⟨root', rs'⟩ := rules'
    cases hrules
    cases hrules'
    cases hall'
    exact ⟨rfl, hkept⟩
  · rintro ⟨rfl, hkept⟩
    exact ⟨lines, ⟨rfl, hkept⟩, hrules, hall⟩

end Ignore

end MessageExtraction
