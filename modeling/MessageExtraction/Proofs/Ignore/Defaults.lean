import MessageExtraction.Ignore.Rules
import MessageExtraction.Proofs.Result

/-!
What becomes of the lines that come before all others. Of the lines that speak of a path the last one
decides, and one that begins with an exclamation mark takes back what lines before it have ignored, those
that always come first among them.
-/

namespace MessageExtraction

/-- The last result of a partial map comes from the last item that has one. -/
theorem getLast?_filterMap_eq_bind {α β : Type} (f : α → Option β) (l : List α) :
    (l.filterMap f).getLast? = (l.filter fun a ↦ (f a).isSome).getLast?.bind f := by
  rw [List.getLast?_filterMap, List.getLast?_filter]
  induction l.reverse with
  | nil => rfl
  | cons a l ih => cases ha : f a <;> simp [ha, ih]

namespace Ignore

namespace Dialect

variable {ρ ε : Type} {d : Dialect ρ ε} {rules : List ρ} {earlier later : List Text}

/-- The rule of a line, if it has one. -/
def ruleOf? (d : Dialect ρ ε) (line : Text) : Option ρ := (d.ofLine line).toOption.join

/-- The rule of the line, if it is one that speaks of the path. -/
def speaks? (d : Dialect ρ ε) (path line : Text) : Option ρ := (d.ruleOf? line).filter (d.covers · path)

/-- The last of the lines that speak of the path. -/
def lastWord? (d : Dialect ρ ε) (lines : List Text) (path : Text) : Option Text :=
  (lines.filter fun line ↦ (d.speaks? path line).isSome).getLast?

theorem ignores_of_ruleOf? {line : Text} {r : ρ} (h : d.ruleOf? line = some r) :
    d.ignores r = true ↔ ¬TakesBack line := by
  refine d.ignores_iff ?_
  cases hline : d.ofLine line with
  | error e => simp [ruleOf?, hline, Except.toOption] at h
  | ok o => simpa [ruleOf?, hline, Except.toOption] using h

/-- The rules of lines are those of the lines that have one. -/
theorem eq_filterMap_of_rulesOf {lines : List Text} (h : d.rulesOf lines = .ok rules) :
    rules = lines.filterMap d.ruleOf? := by
  obtain ⟨all, hall, hrules⟩ := bind_eq_ok.mp h
  rw [← pure_eq_ok.mp hrules]
  clear h hrules
  rw [mapM_eq_ok] at hall
  induction hall with
  | nil => rfl
  | @cons line r lines all hline _ ih =>
    have hr : d.ruleOf? line = r := by rw [ruleOf?, hline]; rfl
    cases r with
    | none => rw [List.filterMap_cons_none hr]; exact ih
    | some r => rw [List.filterMap_cons_some hr]; exact congrArg (r :: ·) ih

/-- Of the lines that speak of a path the last one decides. -/
theorem decides_of_rulesOf {lines : List Text} (h : d.rulesOf lines = .ok rules) (path : Text) :
    d.decides rules path = (d.lastWord? lines path).any (¬TakesBack ·) := by
  have hspeak : rules.filter (d.covers · path) = lines.filterMap (d.speaks? path) := by
    rw [eq_filterMap_of_rulesOf h, List.filter_filterMap]
    rfl
  rw [decides, hspeak, getLast?_filterMap_eq_bind, ← lastWord?]
  cases hlast : d.lastWord? lines path with
  | none => rfl
  | some line =>
    have hsome : (d.speaks? path line).isSome = true :=
      (List.mem_filter.mp (List.mem_of_getLast? hlast)).2
    obtain ⟨r, hr⟩ := Option.isSome_iff_exists.mp hsome
    have hrule : d.ruleOf? line = some r := (Option.filter_eq_some_iff.mp hr).1
    rw [Bool.eq_iff_iff]
    simpa [hr] using ignores_of_ruleOf? hrule

/-- Lines that come later decide before those that come earlier. -/
theorem lastWord?_append (d : Dialect ρ ε) (earlier later : List Text) (path : Text) :
    d.lastWord? (earlier ++ later) path = (d.lastWord? later path).or (d.lastWord? earlier path) := by
  rw [lastWord?, List.filter_append, List.getLast?_append]
  rfl

theorem rulesOf_of_append (h : d.rulesOf (earlier ++ later) = .ok rules) :
    ∃ first, d.rulesOf earlier = .ok first := by
  obtain ⟨all, hall, -⟩ := bind_eq_ok.mp h
  rw [List.mapM_append] at hall
  obtain ⟨first, hfirst, -⟩ := bind_eq_ok.mp hall
  exact ⟨first.filterMap id, bind_eq_ok.mpr ⟨first, hfirst, rfl⟩⟩

/-- Lines that are added decide of the paths that they speak of, the last of them for each, and leave all
others as they are. -/
theorem decides_append {first : List ρ} (h : d.rulesOf (earlier ++ later) = .ok rules)
    (hfirst : d.rulesOf earlier = .ok first) (path : Text) : d.decides rules path = true ↔
      (d.lastWord? later path).elim (d.decides first path = true) (¬TakesBack ·) := by
  rw [decides_of_rulesOf h, lastWord?_append, decides_of_rulesOf hfirst]
  cases d.lastWord? later path <;> simp

/-- Lines that take nothing back ignore what the lines before them have ignored. -/
theorem decides_of_append {first : List ρ} (h : d.rulesOf (earlier ++ later) = .ok rules)
    (hfirst : d.rulesOf earlier = .ok first) (hnone : ∀ line ∈ later, ¬TakesBack line) {path : Text}
    (hpath : d.decides first path = true) : d.decides rules path = true := by
  refine (decides_append h hfirst path).mpr ?_
  cases hlast : d.lastWord? later path with
  | none => exact hpath
  | some line => exact hnone line (List.mem_of_mem_filter (List.mem_of_getLast? hlast))

end Dialect

/-- The lines of a project that come after the ones that always hold. -/
def addedLines (fs : FileSystem) (root : Path) (settings : Settings) : Except Error (List Text) := do
  let shared ← linesIf settings.useGitignore fs ((fs.canonical root).child gitignoreName)
  let own ← linesIf settings.useOwnFile fs ((fs.canonical root).child ownName)
  return shared ++ own ++ settings.extraPatterns

/-- Settings that add no line. -/
def Settings.bare : Settings := ⟨false, false, []⟩

namespace Rules

theorem load_eq_ok_iff {fs : FileSystem} {root : Path} {settings : Settings} {rules : Rules} :
    load fs root settings = .ok rules ↔ ∃ lines, addedLines fs root settings = .ok lines ∧
      rules.root = fs.canonical root ∧
        gitignore.rulesOf (standardLines.map Text.ofString ++ lines) = .ok rules.rules := by
  constructor
  · intro h
    obtain ⟨shared, hshared, h⟩ := bind_eq_ok.mp h
    obtain ⟨own, hown, h⟩ := bind_eq_ok.mp h
    obtain ⟨all, hall, h⟩ := bind_eq_ok.mp h
    rw [mapError_eq_ok_iff] at hall
    rw [← pure_eq_ok.mp h]
    refine ⟨shared ++ own ++ settings.extraPatterns, ?_, rfl, ?_⟩
    · exact bind_eq_ok.mpr ⟨shared, hshared, bind_eq_ok.mpr ⟨own, hown, rfl⟩⟩
    · simpa only [List.append_assoc] using hall
  · intro ⟨lines, hlines, hroot, hall⟩
    obtain ⟨shared, hshared, h⟩ := bind_eq_ok.mp hlines
    obtain ⟨own, hown, h⟩ := bind_eq_ok.mp h
    refine bind_eq_ok.mpr ⟨shared, hshared, bind_eq_ok.mpr ⟨own, hown, ?_⟩⟩
    refine bind_eq_ok.mpr ⟨rules.rules, (mapError_eq_ok_iff _).mpr ?_, by rw [← hroot]; rfl⟩
    rw [← pure_eq_ok.mp h] at hall
    simpa only [List.append_assoc] using hall

/-- Where any rules can be read, those of the lines that always hold can. -/
theorem load_bare {fs : FileSystem} {root : Path} {settings : Settings} {rules : Rules}
    (h : load fs root settings = .ok rules) :
    ∃ standard, load fs root .bare = .ok standard ∧ standard.root = rules.root ∧
      gitignore.rulesOf (standardLines.map Text.ofString) = .ok standard.rules := by
  obtain ⟨lines, -, hroot, hall⟩ := load_eq_ok_iff.mp h
  obtain ⟨first, hfirst⟩ := Dialect.rulesOf_of_append hall
  refine ⟨⟨rules.root, first⟩, load_eq_ok_iff.mpr ⟨[], rfl, hroot, ?_⟩, rfl, hfirst⟩
  rw [List.append_nil]
  exact hfirst

/-- The texts that a path is looked up under: itself from the directory, and with a slash behind it if it
is a directory. -/
def readings (r : Rules) (fs : FileSystem) (p : Path) (isDirectory : Bool) : List Text :=
  let slashed (t : Text) (isDirectory : Bool) := if isDirectory then [t, t ++ [CodePoint.slash]] else [t]
  if p.isAbsolute then
    match p.below? r.root with
    | none => []
    | some path => slashed path.toText (isDirectory || fs.isDirectory p)
  else slashed p.toText isDirectory

theorem ignores_iff {r : Rules} {fs : FileSystem} {p : Path} {isDirectory : Bool} :
    r.ignores fs p isDirectory = true ↔
      ∃ t ∈ r.readings fs p isDirectory, gitignore.decides r.rules t = true := by
  have hslashed : ∀ (t : Text) (d : Bool), r.ignoresRelative t d = true ↔
      ∃ u ∈ if d then [t, t ++ [CodePoint.slash]] else [t], gitignore.decides r.rules u = true := by
    intro t d
    rw [ignoresRelative]
    cases d <;> simp
  rw [ignores, readings]
  by_cases hp : p.isAbsolute
  · rw [if_pos hp, if_pos hp]
    cases p.below? r.root with
    | none => simp
    | some path => exact hslashed _ _
  · rw [if_neg hp, if_neg hp]
    exact hslashed _ _

theorem readings_congr {r r' : Rules} (h : r.root = r'.root) (fs : FileSystem) (p : Path)
    (isDirectory : Bool) : r.readings fs p isDirectory = r'.readings fs p isDirectory := by
  rw [readings, h, readings]

/-- A path that the lines before all others ignore is ignored in a project exactly as the last added line
that speaks of it says, so always if none of them takes anything back. -/
theorem standard_stays_ignored_iff {fs : FileSystem} {root : Path} {settings : Settings} {rules : Rules}
    (h : load fs root settings = .ok rules) :
    ∃ standard lines, load fs root .bare = .ok standard ∧ addedLines fs root settings = .ok lines ∧
      ∀ p isDirectory, standard.ignores fs p isDirectory = true →
        (rules.ignores fs p isDirectory = true ↔ ∃ t ∈ rules.readings fs p isDirectory,
          (gitignore.lastWord? lines t).elim (gitignore.decides standard.rules t = true) (¬TakesBack ·)) ∧
        ((∀ line ∈ lines, ¬TakesBack line) → rules.ignores fs p isDirectory = true) := by
  obtain ⟨standard, hload, hroot, hstandard⟩ := load_bare h
  obtain ⟨lines, hlines, -, hall⟩ := load_eq_ok_iff.mp h
  refine ⟨standard, lines, hload, hlines, ?_⟩
  intro p isDirectory hp
  have hiff : rules.ignores fs p isDirectory = true ↔ ∃ t ∈ rules.readings fs p isDirectory,
      (gitignore.lastWord? lines t).elim (gitignore.decides standard.rules t = true) (¬TakesBack ·) := by
    rw [ignores_iff]
    simp only [Dialect.decides_append hall hstandard]
  refine ⟨hiff, fun hnone ↦ ignores_iff.mpr ?_⟩
  obtain ⟨t, ht, hdecided⟩ := ignores_iff.mp hp
  refine ⟨t, readings_congr hroot fs p isDirectory ▸ ht, ?_⟩
  exact Dialect.decides_of_append hall hstandard hnone hdecided

/-- A project whose own lines take the directory `dist` back. -/
def takingBack : FileSystem :=
  ⟨.directory [(gitignoreName, .file { bytes := (Text.ofString "!dist/").map UInt8.ofNat })]⟩

def moduleScript : Path := "node_modules/x.js"

def loaded (fs : FileSystem) (settings : Settings) : Rules :=
  (load fs "/" settings).toOption.getD ⟨"/", []⟩

/-- What is in `node_modules` stays ignored where only `dist` is taken back. -/
theorem moduleScript_stays_ignored :
    load takingBack "/" .standard = .ok (loaded takingBack .standard) ∧
      (loaded takingBack .standard).ignores takingBack moduleScript false = true := by
  have hload : load takingBack "/" .standard = .ok (loaded takingBack .standard) := by decide +kernel
  refine ⟨hload, ?_⟩
  obtain ⟨standard, lines, hstandard, hlines, hall⟩ := standard_stays_ignored_iff hload
  have hbare : load takingBack "/" .bare = .ok (loaded takingBack .bare) := by decide +kernel
  have hadded : addedLines takingBack "/" .standard = .ok [Text.ofString "!dist/"] := by decide +kernel
  obtain rfl : loaded takingBack .bare = standard := Except.ok.inj (hbare.symm.trans hstandard)
  obtain rfl : [Text.ofString "!dist/"] = lines := Except.ok.inj (hadded.symm.trans hlines)
  have hignored : (loaded takingBack .bare).ignores takingBack moduleScript false = true := by
    decide +kernel
  apply (hall moduleScript false hignored).1.mpr
  refine ⟨"node_modules/x.js", by decide +kernel, ?_⟩
  have hsilent : gitignore.lastWord? [Text.ofString "!dist/"] "node_modules/x.js" = none := by decide +kernel
  rw [hsilent]
  show gitignore.decides (loaded takingBack .bare).rules "node_modules/x.js" = true
  decide +kernel

/-- A line of the settings can take `node_modules` back. -/
theorem moduleScript_taken_back :
    load default "/" .bare = .ok (loaded default .bare) ∧
      (loaded default .bare).ignores default moduleScript false = true ∧
      load default "/" ⟨true, true, [Text.ofString "!node_modules/"]⟩ =
        .ok (loaded default ⟨true, true, [Text.ofString "!node_modules/"]⟩) ∧
      (loaded default ⟨true, true, [Text.ofString "!node_modules/"]⟩).ignores default moduleScript
        false = false := by
  decide +kernel

end Rules

end Ignore

end MessageExtraction
