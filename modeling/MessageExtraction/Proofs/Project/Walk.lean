import MessageExtraction.Project.Walk
import MessageExtraction.Proofs.FileSystem.Evolution
import MessageExtraction.Proofs.Path

/-!
Where the files of a project stand: a walk finds them below the directory it starts from, whose own
path has no links and no steps back.
-/

namespace MessageExtraction

namespace Item

mutual

/-- All names are names, and all links lead along segments. -/
def IsProper : Item → Prop
  | .file _ => True
  | .link target => ∀ t ∈ target.segments, Path.IsSegment t
  | .directory items => AreProper items

def AreProper : List (Text × Item) → Prop
  | [] => True
  | (name, i) :: rest => Path.IsName name ∧ i.IsProper ∧ AreProper rest

end

theorem AreProper.of_mem {items : List (Text × Item)} (h : AreProper items) {name : Text} {i : Item}
    (hi : (name, i) ∈ items) : Path.IsName name ∧ i.IsProper := by
  induction items with
  | nil => cases hi
  | cons item items ih =>
    obtain ⟨hname, hitem, hitems⟩ := h
    obtain rfl | hi := List.mem_cons.mp hi
    · exact ⟨hname, hitem⟩
    · exact ih hitems hi

theorem sizeOf_lt_of_mem {items : List (Text × Item)} {name : Text} {i : Item}
    (hi : (name, i) ∈ items) : sizeOf i < sizeOf (directory items) := by
  have := List.sizeOf_lt_of_mem hi
  simp only [Prod.mk.sizeOf_spec] at this
  simp only [directory.sizeOf_spec]
  omega

theorem IsProper.at? {i j : Item} {q : List Text} (h : i.IsProper) (hj : i.at? q = some j) :
    j.IsProper := by
  induction q generalizing i with
  | nil => exact Option.some.inj hj ▸ h
  | cons name q ih =>
    cases i with
    | file f => cases hj
    | link target => cases hj
    | directory items =>
      rw [Item.at?] at hj
      obtain ⟨k, hk, hj⟩ := Option.bind_eq_some_iff.mp hj
      obtain ⟨before, after, hsplit, -⟩ := List.lookup_eq_some_iff.mp hk
      exact ih (AreProper.of_mem h (hsplit ▸ List.mem_append_right _ List.mem_cons_self)).2 hj

theorem IsProper.isName {i : Item} {q : List Text} (h : i.IsProper) (hq : (i.at? q).isSome) :
    ∀ t ∈ q, Path.IsName t := by
  induction q generalizing i with
  | nil => exact nofun
  | cons name q ih =>
    cases i with
    | file f => cases hq
    | link target => cases hq
    | directory items =>
      obtain ⟨j, hj⟩ := Option.isSome_iff_exists.mp hq
      rw [Item.at?] at hj
      obtain ⟨k, hk, hj⟩ := Option.bind_eq_some_iff.mp hj
      obtain ⟨before, after, hsplit, -⟩ := List.lookup_eq_some_iff.mp hk
      obtain ⟨hname, hproper⟩ :=
        AreProper.of_mem h (hsplit ▸ List.mem_append_right _ List.mem_cons_self)
      exact List.forall_mem_cons.mpr ⟨hname, ih hproper (by rw [hj]; rfl)⟩

end Item

namespace FileSystem

/-- All names are names, and all links lead along segments. -/
def IsProper (fs : FileSystem) : Prop := fs.top.IsProper

variable {fs : FileSystem} {place names q : List Text} {name : Text} {stop : Stop} {p : Path}

theorem IsProper.isName (h : fs.IsProper) (hq : fs.face? q ≠ none) : ∀ t ∈ q, Path.IsName t := by
  refine Item.IsProper.isName h ?_
  rwa [← at?, Option.isSome_iff_ne_none, ne_eq, ← Option.map_eq_none_iff (f := Item.face)]

theorem IsProper.isStepless (h : fs.IsProper) : fs.IsStepless :=
  fun _ hq hdots ↦ (h.isName hq _ hdots).2 rfl

theorem IsProper.isSegment_of_link (h : fs.IsProper) {target : Path}
    (hq : fs.face? q = some (.link target)) : ∀ t ∈ target.segments, Path.IsSegment t := by
  obtain ⟨i, hi, hface⟩ := Option.map_eq_some_iff.mp hq
  cases i with
  | file f => cases hface
  | directory items => cases hface
  | link t =>
    cases hface
    exact h.at? hi

section Canonical

/-- A place that is reached by names alone. -/
structure IsPlain (fs : FileSystem) (place : List Text) : Prop where
  isName : ∀ t ∈ place, Path.IsName t
  ne_link : ∀ above name target, above ++ [name] <+: place →
    fs.face? (above ++ [name]) ≠ some (.link target)

theorem isPlain_nil (fs : FileSystem) : fs.IsPlain [] := by
  refine ⟨nofun, fun above name target h ↦ ?_⟩
  simp at h

theorem IsPlain.of_isPrefix (h : fs.IsPlain place) (hq : q <+: place) : fs.IsPlain q :=
  ⟨fun t ht ↦ h.isName t (hq.subset ht), fun above name target hp ↦
    h.ne_link above name target (hp.trans hq)⟩

theorem IsPlain.concat (h : fs.IsPlain place) (hname : Path.IsName name)
    (hlink : ∀ target, fs.face? (place ++ [name]) ≠ some (.link target)) :
    fs.IsPlain (place ++ [name]) := by
  refine ⟨?_, fun above last target hp ↦ ?_⟩
  · rw [List.forall_mem_append]
    exact ⟨h.isName, by simpa using hname⟩
  · rcases List.prefix_concat_iff.mp hp with heq | hp
    · rw [heq]
      exact hlink target
    · exact h.ne_link above last target hp

/-- Names that are taken from a plain place lead to a plain place, or to a link from one. -/
theorem advance_isPlain (hfs : fs.IsProper) (hplace : fs.IsPlain place)
    (hnames : ∀ t ∈ names, Path.IsSegment t) (h : fs.advance .nothing place names = .ok stop) :
    (∃ q, stop = .arrived q ∧ fs.IsPlain q) ∨
      ∃ base target rest, stop = .link base target rest ∧ fs.IsPlain base ∧
        ∀ t ∈ target.segments ++ rest, Path.IsSegment t := by
  induction names generalizing place with
  | nil => exact .inl ⟨place, (Except.ok.inj h).symm, hplace⟩
  | cons name rest ih =>
    obtain ⟨hname, hrest⟩ := List.forall_mem_cons.mp hnames
    by_cases hdots : name = Path.dotDot
    · rw [advance, if_pos hdots] at h
      exact ih (hplace.of_isPrefix (List.dropLast_prefix place)) hrest h
    · by_cases hlink : ∃ target, fs.face? (place ++ [name]) = some (.link target)
      · obtain ⟨target, hlink⟩ := hlink
        rw [advance_link hdots hlink] at h
        refine .inr ⟨place, target, rest, (Except.ok.inj h).symm, hplace, ?_⟩
        exact List.forall_mem_append.mpr ⟨hfs.isSegment_of_link hlink, hrest⟩
      · rw [not_exists] at hlink
        rw [advance_nothing hdots hlink] at h
        exact ih (hplace.concat ⟨hname, hdots⟩ hlink) hrest h

theorem follow_isPlain (hfs : fs.IsProper) {links : Nat} (hplace : fs.IsPlain place)
    (hnames : ∀ t ∈ names, Path.IsSegment t) (h : fs.follow .nothing links place names = .ok q) :
    fs.IsPlain q := by
  induction links using Nat.strongRecOn generalizing place names with
  | ind links ih =>
    obtain ha | ⟨base, target, rest, fewer, rfl, ha, h⟩ := follow_eq_ok_iff.mp h
    · obtain ⟨_, ⟨⟩, hq⟩ | ⟨_, _, _, ⟨⟩, -⟩ := advance_isPlain hfs hplace hnames ha
      exact hq
    · obtain ⟨_, ⟨⟩, -⟩ | ⟨_, _, _, ⟨⟩, hbase, hrest⟩ := advance_isPlain hfs hplace hnames ha
      refine ih fewer (Nat.lt_succ_self _) ?_ hrest h
      split
      · exact isPlain_nil fs
      · exact hbase

theorem advance_of_isPlain (h : fs.IsPlain (place ++ names)) :
    fs.advance .nothing place names = .ok (.arrived (place ++ names)) := by
  induction names generalizing place with
  | nil => rw [List.append_nil, advance]
  | cons name names ih =>
    rw [List.append_cons] at h ⊢
    have hname : name ≠ Path.dotDot := (h.isName name (by simp)).2
    rw [advance_nothing hname fun target ↦ h.ne_link place name target (List.prefix_append _ _), ih h]

theorem IsPlain.resolve_nothing (h : fs.IsPlain place) (root : Text) :
    fs.resolve .nothing ⟨root, place⟩ = .ok place :=
  follow_eq_ok_iff.mpr (.inl (advance_of_isPlain h))

theorem canonical_canonical (hfs : fs.IsProper) (hp : ∀ t ∈ p.segments, Path.IsSegment t) :
    fs.canonical (fs.canonical p) = fs.canonical p := by
  cases h : fs.resolve .nothing p with
  | error e =>
    -- A path through too many links stands for itself.
    have hself : fs.canonical p = p := by rw [canonical, h]
    rw [hself, hself]
  | ok place =>
    have hplain : fs.IsPlain place := follow_isPlain hfs (isPlain_nil fs) hp h
    have hplace : fs.canonical p = ⟨[CodePoint.slash], place⟩ := by rw [canonical, h]
    rw [hplace, canonical, hplain.resolve_nothing]

theorem isSegment_canonical (hfs : fs.IsProper) (hp : ∀ t ∈ p.segments, Path.IsSegment t) :
    ∀ t ∈ (fs.canonical p).segments, Path.IsSegment t := by
  rw [canonical]
  cases h : fs.resolve .nothing p with
  | error e => exact hp
  | ok place => exact fun t ht ↦ ((follow_isPlain hfs (isPlain_nil fs) hp h).isName t ht).1

/-- What a path leads to once its links are followed stands where the names of that path lead. -/
theorem canonical_of_find? (hfs : fs.IsProper) (hp : ∀ t ∈ p.segments, Path.IsSegment t) {i : Item}
    (hi : fs.find? (fs.canonical p) = some i) :
    ∃ above, fs.canonical p = ⟨[CodePoint.slash], above⟩ ∧ fs.at? above = some i := by
  rw [find?] at hi
  cases hr : fs.resolve .whole (fs.canonical p) with
  | error e => simp [hr] at hi
  | ok q =>
    simp only [hr] at hi
    have hthere : fs.resolve .nothing (fs.canonical p) = .ok q :=
      resolve_extends (.refl fs) (by decide) (by simp) hr
    cases hplace : fs.resolve .nothing p with
    | error e =>
      rw [canonical, hplace] at hthere
      rw [hplace] at hthere
      cases hthere
    | ok above =>
      have hplain : fs.IsPlain above := follow_isPlain hfs (isPlain_nil fs) hp hplace
      have hcanonical : fs.canonical p = ⟨[CodePoint.slash], above⟩ := by rw [canonical, hplace]
      rw [hcanonical, hplain.resolve_nothing] at hthere
      cases hthere
      exact ⟨_, hcanonical, hi⟩

end Canonical

section Walk

variable {α : Type} {s : Sieve} {directory : Path} {f : FoundFile} {items : List (Text × Item)}

theorem mem_byName {named : List (Text × α)} {a : Text × α} : a ∈ byName named ↔ a ∈ named :=
  List.mem_mergeSort

theorem mem_inOrder {named : List (Text × α)} {a : α} :
    a ∈ inOrder named ↔ ∃ name, (name, a) ∈ named := by
  simp [inOrder, byName]

theorem mem_ownFiles : f ∈ fs.ownFiles s directory items ↔
    ∃ name i, (name, i) ∈ items ∧ fs.foundFile? s directory name i = some f := by
  simp [ownFiles, mem_byName]

theorem path_of_foundFile? {i : Item} (h : fs.foundFile? s directory name i = some f) :
    f.path = directory.child name := by
  rw [foundFile?] at h
  obtain ⟨size, -, h⟩ := Option.bind_eq_some_iff.mp h
  simp only at h
  split at h
  · rw [← Option.some.inj h]
  · cases h

mutual

theorem isBelow_filesBelow {fs : FileSystem} {s : Sieve} {directory : Path} {f : FoundFile} {i : Item}
    (hf : f ∈ fs.filesBelow s directory i) : f.path.IsBelow directory := by
  cases i with
  | file g => simp [filesBelow] at hf
  | link target => simp [filesBelow] at hf
  | directory items =>
    rw [filesBelow] at hf
    rcases List.mem_append.mp hf with hf | hf
    · obtain ⟨name, i, -, hfound⟩ := mem_ownFiles.mp hf
      rw [path_of_foundFile? hfound]
      exact Path.isBelow_child directory name
    · obtain ⟨found, hfound, hf⟩ := List.mem_flatten.mp hf
      obtain ⟨name, hfound⟩ := mem_inOrder.mp hfound
      exact isBelow_filesByName hfound hf

theorem isBelow_filesByName {fs : FileSystem} {s : Sieve} {directory : Path} {f : FoundFile}
    {items : List (Text × Item)} {name : Text} {found : List FoundFile}
    (hfound : (name, found) ∈ fs.filesByName s directory items) (hf : f ∈ found) :
    f.path.IsBelow directory := by
  cases items with
  | nil => cases hfound
  | cons item rest =>
    obtain ⟨n, i⟩ := item
    rw [filesByName] at hfound
    split at hfound
    · rcases List.mem_cons.mp hfound with heq | hfound
      · obtain ⟨rfl, rfl⟩ := Prod.mk.inj heq
        exact (isBelow_filesBelow hf).of_child
      · exact isBelow_filesByName hfound hf
    · exact isBelow_filesByName hfound hf

end

end Walk

end FileSystem

end MessageExtraction
