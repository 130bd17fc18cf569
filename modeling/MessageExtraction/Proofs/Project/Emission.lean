import MessageExtraction.Proofs.FileSystem.Evolution
import MessageExtraction.Proofs.Json.Encoding
import MessageExtraction.Proofs.Project.Accounting

/-!
What a file that is extracted does to the files around it: it writes to one of them, and only when all
of its nodes were visited and its catalog was put into words.
-/

namespace MessageExtraction

namespace Extraction

variable {x y : Extraction} {fs fs' : FileSystem} {cwd p : Path}

theorem segments_ne_nil_of_catalogPath? (h : x.catalogPath? cwd = some p) : p.segments ≠ [] := by
  rw [catalogPath?] at h
  split at h
  · cases h
  · obtain ⟨directory, -, rfl⟩ := Option.map_eq_some_iff.mp h
    simp [Path.ofCatalog]

/-- All nodes of a file are visited without a failure, and the file for the catalog of its messages is
opened. -/
structure Opening (x : Extraction) (fs : FileSystem) (cwd : Path) where
  ended : Extraction
  path : Path
  /-- The files with the directories for the catalog. -/
  made : FileSystem
  text : Text
  place : List Text
  traverse_eq : x.begin.traverse = (ended, none)
  path_eq : ended.catalogPath? cwd = some path
  made_eq : fs.makeDirectories path.parent = (made, .ok ())
  text_eq : Message.dump ended.messages = .ok text
  place_eq : made.writable path = .ok place

namespace Opening

variable (o : x.Opening fs cwd)

theorem takesFile : o.made.TakesFile o.place :=
  FileSystem.takesFile_of_writable (segments_ne_nil_of_catalogPath? o.path_eq) o.place_eq

theorem addsDirectories : fs.AddsDirectories o.made := by
  have h := fs.addsDirectories_makeDirectories o.path.parent
  rwa [o.made_eq] at h

def filesWith (bytes : Bytes) : FileSystem := o.made.set o.place (.file ⟨bytes, none, none⟩)

theorem bytesAt?_filesWith (bytes : Bytes) :
    (o.filesWith bytes).bytesAt? = Function.update fs.bytesAt? o.place (some bytes) := by
  rw [filesWith, o.takesFile.bytesAt?_set, funext o.addsDirectories.bytesAt?_eq]

theorem extends_filesWith (bytes : Bytes) : fs.Extends (o.filesWith bytes) :=
  o.addsDirectories.extends.trans o.takesFile.extends_set

theorem resolve_filesWith (bytes : Bytes) : (o.filesWith bytes).resolve .whole o.path = .ok o.place := by
  refine FileSystem.resolve_extends o.takesFile.extends_set (by decide) (fun _ ↦ ?_)
    (FileSystem.resolve_of_writable o.place_eq)
  rw [o.takesFile.face?_set, Function.update_self]
  simp

theorem runOn_eq : x.runOn fs cwd =
    match Utf8.encode? o.text with
    | some bytes =>
      (o.filesWith bytes, { o.ended.begin with
        logs := o.ended.logs ++ [LogEvent.ofCatalog o.ended.messages o.path] }.logExtracted,
        .ok (o.ended.result (some o.path)))
    | none => (o.filesWith [], o.ended.begin, .error (.source (.fault .unencodable))) := by
  have hb : o.ended.begin.messages = o.ended.messages := rfl
  rw [runOn, o.traverse_eq]
  simp only [emit, catalogPath?_begin, o.path_eq, hb, FileSystem.writeCatalog, o.made_eq, o.text_eq,
    FileSystem.writeText, o.place_eq]
  cases Utf8.encode? o.text <;> rfl

theorem exists_not_isEncodable (h : Utf8.encode? o.text = none) :
    ∃ m ∈ o.ended.messages, ¬m.IsEncodable := by
  rw [← Option.not_isSome_iff_eq_none, Message.encode?_dump_isSome_iff o.text_eq] at h
  simpa using h

/-- There is one way to open the catalog, if there is one. -/
instance : Subsingleton (x.Opening fs cwd) where
  allEq o o' := by
    cases o with
    | mk ended path made text place htraverse hpath hmade htext hplace =>
      cases o' with
      | mk ended' path' made' text' place' htraverse' hpath' hmade' htext' hplace' =>
        obtain rfl : ended = ended' := congrArg Prod.fst (htraverse.symm.trans htraverse')
        obtain rfl := Option.some.inj (hpath.symm.trans hpath')
        obtain rfl : made = made' := congrArg Prod.fst (hmade.symm.trans hmade')
        obtain rfl := Except.ok.inj (htext.symm.trans htext')
        obtain rfl := Except.ok.inj (hplace.symm.trans hplace')
        rfl

end Opening

theorem evolves_writeCatalog (fs : FileSystem) (messages : List Message) (hp : p.segments ≠ []) :
    fs.Evolves (fs.writeCatalog messages p).1 := by
  have hmade := fs.evolves_makeDirectories p.parent
  rw [FileSystem.writeCatalog]
  rcases hm : fs.makeDirectories p.parent with ⟨made, e | ⟨⟩⟩
  · rwa [hm] at hmade
  · rw [hm] at hmade
    cases Message.dump messages with
    | error f => exact hmade
    | ok t => exact hmade.trans (made.evolves_writeText hp t none)

theorem evolves_runOn (x : Extraction) (fs : FileSystem) (cwd : Path) :
    fs.Evolves (x.runOn fs cwd).1 := by
  rw [runOn]
  rcases x.begin.traverse with ⟨ended, _ | e⟩
  · simp only [emit, catalogPath?_begin]
    cases hp : ended.catalogPath? cwd with
    | none => exact .refl
    | some p =>
      have hwritten :=
        evolves_writeCatalog fs ended.begin.messages (segments_ne_nil_of_catalogPath? hp)
      simp only
      rcases hw : fs.writeCatalog ended.begin.messages p with ⟨after, e | ⟨⟩⟩ <;> rwa [hw] at hwritten
  · exact .refl

/-- How a file leaves the files around it, and what comes out of it: a catalog that is not opened
leaves them as they are, new directories apart, and one that is opened is written or left empty. -/
inductive Emits (x : Extraction) (fs : FileSystem) (cwd : Path) :
    FileSystem → Except FileFailure FileResult → Prop
  | failed {after : FileSystem} {e : FileFailure} : IsEmpty (x.Opening fs cwd) →
      fs.AddsDirectories after → Emits x fs cwd after (.error e)
  | untold {ended : Extraction} : x.begin.traverse = (ended, none) → ended.catalogPath? cwd = none →
      Emits x fs cwd fs (.ok (ended.result none))
  | written (o : x.Opening fs cwd) {bytes : Bytes} : Utf8.encode? o.text = some bytes →
      Emits x fs cwd (o.filesWith bytes) (.ok (o.ended.result (some o.path)))
  | emptied (o : x.Opening fs cwd) : (∃ m ∈ o.ended.messages, ¬m.IsEncodable) →
      Emits x fs cwd (o.filesWith []) (.error (.source (.fault .unencodable)))

theorem emits_of_no_opening (h : IsEmpty (x.Opening fs cwd)) :
    x.Emits fs cwd (x.runOn fs cwd).1 (x.runOn fs cwd).2.2 := by
  rw [runOn]
  -- Of the stages on the way one has to fail, since past the last the catalog would be open.
  rcases ht : x.begin.traverse with ⟨ended, _ | e⟩
  · simp only [emit, catalogPath?_begin]
    cases hp : ended.catalogPath? cwd with
    | none => exact (Emits.untold ht hp : x.Emits fs cwd fs (.ok (ended.result none)))
    | some p =>
      have hadds := fs.addsDirectories_makeDirectories p.parent
      have hb : ended.begin.messages = ended.messages := rfl
      simp only [hb, FileSystem.writeCatalog]
      rcases hm : fs.makeDirectories p.parent with ⟨made, e | ⟨⟩⟩
      · rw [hm] at hadds
        exact .failed h hadds
      · rw [hm] at hadds
        cases hd : Message.dump ended.messages with
        | error f => exact .failed h hadds
        | ok t =>
          simp only [FileSystem.writeText]
          cases hw : made.writable p with
          | error e => exact .failed h hadds
          | ok place => exact h.elim ⟨ended, p, made, t, place, ht, hp, hm, hd, hw⟩
  · exact .failed h (.refl fs)

theorem emits_of_runOn {outcome : Except FileFailure FileResult}
    (h : x.runOn fs cwd = (fs', y, outcome)) : x.Emits fs cwd fs' outcome := by
  by_cases ho : IsEmpty (x.Opening fs cwd)
  · have hemits := emits_of_no_opening ho
    rwa [h] at hemits
  · obtain ⟨o⟩ := not_isEmpty_iff.mp ho
    rw [o.runOn_eq] at h
    cases ht : Utf8.encode? o.text with
    | none =>
      rw [ht] at h
      cases h
      exact .emptied o (o.exists_not_isEncodable ht)
    | some bytes =>
      rw [ht] at h
      cases h
      exact .written o ht

/-- A file that fails leaves the bytes of all files as they were, except when its catalog is opened for a
message with a text that has no bytes, and no empty file stood there before. A catalog that is opened is
left empty, and nothing else has other bytes. -/
theorem failed_run_keeps_bytes_iff {e : FileFailure} (h : x.runOn fs cwd = (fs', y, .error e)) :
    ((∀ place, fs'.bytesAt? place = fs.bytesAt? place) ↔
      ¬∃ o : x.Opening fs cwd, (∃ m ∈ o.ended.messages, ¬m.IsEncodable) ∧
        fs.bytesAt? o.place ≠ some []) ∧
    ∀ o : x.Opening fs cwd, e = .source (.fault .unencodable) ∧
      (∃ m ∈ o.ended.messages, ¬m.IsEncodable) ∧
      fs'.bytesAt? = Function.update fs.bytesAt? o.place (some []) := by
  cases emits_of_runOn h with
  | failed hempty hadds =>
    exact ⟨iff_of_true hadds.bytesAt?_eq fun ⟨o, _⟩ ↦ hempty.elim o, hempty.elim⟩
  | emptied o hm =>
    have hbytes := o.bytesAt?_filesWith []
    refine ⟨⟨?_, ?_⟩, fun o' ↦ ?_⟩
    · rintro hkept ⟨o', -, hplace⟩
      obtain rfl := Subsingleton.elim o o'
      refine hplace ?_
      rw [← hkept, hbytes, Function.update_self]
    · intro hnone place
      have hempty : fs.bytesAt? o.place = some [] := by
        by_contra hplace
        exact hnone ⟨o, hm, hplace⟩
      rw [hbytes, ← hempty, Function.update_eq_self]
    · obtain rfl := Subsingleton.elim o o'
      exact ⟨rfl, hm, hbytes⟩

end Extraction

namespace ProjectRun

variable {options : Options} {enabled : List Language} {root p : Path} {fs mid after : FileSystem}
  {v : Verdict} {ps : List Path} {vs : List Verdict}

theorem evolves_step (run : ProjectRun) (options : Options) (enabled : List Language) (root p : Path) :
    run.files.Evolves (run.step options enabled root p).1.files := by
  rw [step]
  cases Language.detect? enabled p with
  | none => exact .refl
  | some l =>
    simp only [extractFile]
    cases run.files.read p with
    | error e => exact .refl
    | ok f =>
      have hran := (Extraction.openSource (.ofFile f p.toText root) options).evolves_runOn run.files root
      simp only
      rcases hr : (Extraction.openSource (.ofFile f p.toText root) options).runOn run.files root with
        ⟨after, x, ((r | fault) | e) | r⟩ <;> rwa [hr] at hran

theorem Ends.evolves (h : Ends options enabled root fs p v mid) : fs.Evolves mid := by
  obtain ⟨logs, hs⟩ := step_of_ends (.start fs) h
  have hstep := (start fs).evolves_step options enabled root p
  rwa [hs] at hstep

theorem Accounts.evolves (h : Accounts options enabled root fs ps vs after) : fs.Evolves after := by
  induction h with
  | nil => exact .refl
  | cons hends _ ih => exact hends.evolves.trans ih

end ProjectRun

section WrittenBefore

/-- The call with a string, given by what is written between its quotes and the nodes of that. -/
def stringCall (written : Text) (parts : List Node) : File where
  bytes := (Utf8.encode? (("formatIntlMessage('" : Text) ++ written ++ ("');" : Text))).getD []
  tree := some (callProgram [⟨"string", true, 18, 20 + written.length, [],
    .token "'" 18 19 :: parts ++
      [⟨"'", false, 19 + written.length, 20 + written.length, [], []⟩]⟩] (21 + written.length), false)

def surrogateCall : File := stringCall "\\ud800" [.leaf "escape_sequence" 19 25]

def catalogOptions : Options :=
  { Options.standard with messagesDir := some (projectRoot.child "messages") }

def openedForCatalog (f : File) : Extraction :=
  ProjectRun.opened catalogOptions projectRoot f callPath

def writtenProject (f : File) : FileSystem :=
  ⟨.directory [("proj", .directory [("a.js", .file f),
    ("messages", .directory [("a.json", .file ⟨[0x5b, 0x5d], none, none⟩)])])]⟩

def catalogPlace : List Text := ["proj", "messages", "a.json"]

theorem exists_runOn_eq_error (x : Extraction) (fs : FileSystem) (cwd : Path) {e : FileFailure}
    (h : (match (x.runOn fs cwd).2.2 with | .error e => some e | .ok _ => none) = some e) :
    ∃ fs' y, x.runOn fs cwd = (fs', y, .error e) := by
  rcases hr : x.runOn fs cwd with ⟨fs', y, e' | r⟩
  · rw [hr] at h
    exact ⟨fs', y, by rw [Option.some.inj h]⟩
  · rw [hr] at h
    cases h

/-- A call that is rejected leaves the catalog from before. -/
theorem bareCall_keeps_bytes : ∃ fs' y e,
    (openedForCatalog bareCall).runOn (writtenProject bareCall) projectRoot = (fs', y, .error e) ∧
    ∀ place, fs'.bytesAt? place = (writtenProject bareCall).bytesAt? place := by
  have htraverse : (openedForCatalog bareCall).begin.traverse.2 ≠ none := by decide +kernel
  obtain ⟨fs', y, h⟩ := exists_runOn_eq_error (openedForCatalog bareCall) (writtenProject bareCall)
    projectRoot (e := .source ((openedForCatalog bareCall).source.complain
      ((((openedForCatalog bareCall).source.places)[2]?).getD default) .missingArgument))
    (by decide +kernel)
  refine ⟨fs', y, _, h, (Extraction.failed_run_keeps_bytes_iff h).1.mpr ?_⟩
  rintro ⟨o, -⟩
  exact htraverse (congrArg Prod.snd o.traverse_eq)

/-- A message that has no bytes fails, and the catalog from before is empty. -/
theorem surrogateCall_empties_catalog : ∃ fs' y,
    (openedForCatalog surrogateCall).runOn (writtenProject surrogateCall) projectRoot =
      (fs', y, .error (.source (.fault .unencodable))) ∧
    (writtenProject surrogateCall).bytesAt? catalogPlace = some [0x5b, 0x5d] ∧
    fs'.bytesAt? catalogPlace = some [] := by
  have hempty : ((openedForCatalog surrogateCall).runOn (writtenProject surrogateCall)
      projectRoot).1.bytesAt? catalogPlace = some [] := by decide +kernel
  obtain ⟨fs', y, h⟩ := exists_runOn_eq_error (openedForCatalog surrogateCall)
    (writtenProject surrogateCall) projectRoot (e := .source (.fault .unencodable))
    (by decide +kernel)
  rw [h] at hempty
  exact ⟨fs', y, h, by decide +kernel, hempty⟩

end WrittenBefore

end MessageExtraction
