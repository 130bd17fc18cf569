import MessageExtraction.Proofs.Project.Additions

/-!
Where a walk that visits files takes those that are found at its start: if its visits leave the files as
they are, and for a run over a project also if there are no links. What such a run brings about itself are
directories and catalogs, and neither shows among the files that are looked up in their turn.
-/

namespace MessageExtraction

namespace FileSystem

variable {fs : FileSystem} {s : Sieve} {place : List Text} {name : Text} {i : Item}

theorem walk_eq_filesBelow (hl : fs.IsLinkless) (hplace : Path.dotDot ∉ place)
    (hi : fs.at? place = some i) :
    fs.walk s ⟨[CodePoint.slash], place⟩ = fs.filesBelow s ⟨[CodePoint.slash], place⟩ i := by
  rw [walk, hl.canonical_place hplace]
  simp only [hl.find?_place hplace, hi]

theorem walk_eq_nil (hl : fs.IsLinkless) (hplace : Path.dotDot ∉ place) (hi : fs.at? place = none) :
    fs.walk s ⟨[CodePoint.slash], place⟩ = [] := by
  rw [walk, hl.canonical_place hplace]
  simp only [hl.find?_place hplace, hi]

theorem inOrder_map {α β : Type} (f : Text × α → β) (named : List (Text × α)) :
    inOrder (named.map fun item ↦ (item.1, f item)) = (byName named).map f := by
  have hsorted : byName (named.map fun item ↦ (item.1, f item)) =
      (byName named).map fun item ↦ (item.1, f item) :=
    (List.map_mergeSort (by intros; rfl)).symm
  rw [inOrder, hsorted, List.map_map]
  rfl

theorem inOrder_filesByName (fs : FileSystem) (s : Sieve) (directory : Path) (items : List (Text × Item)) :
    inOrder (fs.filesByName s directory items) =
      (byName (items.filter fun (name, i) ↦
        i.isDirectory && !s.ignores (directory.child name) true)).map
          fun (name, i) ↦ fs.filesBelow s (directory.child name) i := by
  rw [filesByName_eq]
  exact inOrder_map (fun item ↦ fs.filesBelow s (directory.child item.1) item.2) _

theorem sizeAt?_child (hdots : Path.dotDot ∉ place ++ [name]) (hi : fs.at? (place ++ [name]) = some i) :
    fs.sizeAt? (Path.child ⟨[CodePoint.slash], place⟩ name) i =
      if fs.isDirectory (Path.child ⟨[CodePoint.slash], place⟩ name) then none
      else fs.sizeOf? (Path.child ⟨[CodePoint.slash], place⟩ name) := by
  rw [isDirectory, sizeOf?]
  cases i with
  | directory items =>
    rw [Path.child, find?_place hdots hi (by simp)]
    rfl
  | file g =>
    rw [Path.child, find?_place hdots hi (by simp)]
    rfl
  | link target =>
    rw [sizeAt?]
    rcases fs.find? (Path.child ⟨[CodePoint.slash], place⟩ name) with _ | (g | t | items) <;> rfl

/-- Of what leads to no directory a walk finds what would be taken now. -/
theorem path_foundFile? (hdots : Path.dotDot ∉ place ++ [name]) (hi : fs.at? (place ++ [name]) = some i) :
    ((fs.foundFile? s ⟨[CodePoint.slash], place⟩ name i).map (·.path)).toList =
      if !fs.isDirectory (Path.child ⟨[CodePoint.slash], place⟩ name) &&
          fs.takes s (Path.child ⟨[CodePoint.slash], place⟩ name) then
        [Path.child ⟨[CodePoint.slash], place⟩ name] else [] := by
  have hsegments : (Path.child ⟨[CodePoint.slash], place⟩ name).segments = place ++ [name] := rfl
  rw [foundFile?]
  simp only [sizeAt?_child hdots hi]
  cases hdirectory : fs.isDirectory (Path.child ⟨[CodePoint.slash], place⟩ name) with
  | true => rfl
  | false =>
    have hfile : i.isDirectory = false := by
      cases i with
      | directory items =>
        rw [isDirectory, Path.child, find?_place hdots hi (by simp)] at hdirectory
        exact hdirectory
      | file g => rfl
      | link target => rfl
    rw [takes, hsegments, hi, Option.any_some, hfile, if_neg Bool.false_ne_true]
    cases fs.sizeOf? (Path.child ⟨[CodePoint.slash], place⟩ name) with
    | none => simp
    | some size =>
      simp only [Option.bind_eq_bind, Option.bind_some, Option.any_some, Bool.not_false, Bool.true_and]
      split <;> rfl

/-- The files of a directory that a walk finds are those that would be taken now, of all that it holds
and that leads to no directory. -/
theorem paths_own {items : List (Text × Item)}
    (hdots : ∀ item ∈ items, Path.dotDot ∉ place ++ [item.1])
    (hitems : ∀ item ∈ items, fs.at? (place ++ [item.1]) = some item.2) :
    (((items.filter fun (name, _) ↦ !fs.isDirectory (Path.child ⟨[CodePoint.slash], place⟩ name)).map
      fun (name, _) ↦ if fs.takes s (Path.child ⟨[CodePoint.slash], place⟩ name) then
        [Path.child ⟨[CodePoint.slash], place⟩ name] else []).flatten) =
      (items.filterMap fun (name, i) ↦ fs.foundFile? s ⟨[CodePoint.slash], place⟩ name i).map
        (·.path) := by
  induction items with
  | nil => rfl
  | cons item items ih =>
    obtain ⟨name, i⟩ := item
    obtain ⟨hname, hnames⟩ := List.forall_mem_cons.mp hdots
    obtain ⟨hi, hrest⟩ := List.forall_mem_cons.mp hitems
    have hfound := path_foundFile? (s := s) hname hi
    have hcons : ((((name, i) :: items).filterMap fun (name, i) ↦
          fs.foundFile? s ⟨[CodePoint.slash], place⟩ name i).map (·.path)) =
        ((fs.foundFile? s ⟨[CodePoint.slash], place⟩ name i).map (·.path)).toList ++
          (items.filterMap fun (name, i) ↦ fs.foundFile? s ⟨[CodePoint.slash], place⟩ name i).map
            (·.path) := by
      cases hi : fs.foundFile? s ⟨[CodePoint.slash], place⟩ name i <;> simp [hi]
    rw [hcons, hfound, ← ih hnames hrest, List.filter_cons]
    simp only
    cases fs.isDirectory (Path.child ⟨[CodePoint.slash], place⟩ name) <;> rfl

/-- What a walk finds below a directory: of its own files those that would be taken now, and then what it
finds below each directory in it that is not passed over. -/
theorem paths_filesBelow {items : List (Text × Item)}
    (hdots : ∀ item ∈ items, Path.dotDot ∉ place ++ [item.1])
    (hitems : ∀ item ∈ items, fs.at? (place ++ [item.1]) = some item.2) :
    (fs.filesBelow s ⟨[CodePoint.slash], place⟩ (.directory items)).map (·.path) =
      (((byName items).filter fun (name, _) ↦
          !fs.isDirectory (Path.child ⟨[CodePoint.slash], place⟩ name)).map fun (name, _) ↦
        if fs.takes s (Path.child ⟨[CodePoint.slash], place⟩ name) then
          [Path.child ⟨[CodePoint.slash], place⟩ name] else []).flatten ++
      ((byName (items.filter fun (name, i) ↦ i.isDirectory &&
          !s.ignores (Path.child ⟨[CodePoint.slash], place⟩ name) true)).map fun (name, i) ↦
        (fs.filesBelow s (Path.child ⟨[CodePoint.slash], place⟩ name) i).map (·.path)).flatten := by
  have hmem (item : Text × Item) (hitem : item ∈ byName items) : item ∈ items := mem_byName.mp hitem
  rw [filesBelow, List.map_append, ownFiles,
    ← paths_own (fun item h ↦ hdots item (hmem item h)) (fun item h ↦ hitems item (hmem item h)),
    inOrder_filesByName, List.map_flatten, List.map_map]
  rfl

theorem IsDistinct.at?_child (hd : fs.IsDistinct) {items : List (Text × Item)}
    (hitems : fs.at? place = some (.directory items)) {item : Text × Item} (hitem : item ∈ items) :
    fs.at? (place ++ [item.1]) = some item.2 := by
  have hlookup : items.lookup item.1 = some item.2 :=
    (Item.lookup_eq_some_iff_mem (hd.at? hitems).names).mpr hitem
  rw [FileSystem.at?, Item.at?_append, ← FileSystem.at?, hitems, Option.bind_some, Item.at?, hlookup]
  rfl

theorem at?_eq_directory_iff :
    (∃ items, fs.at? place = some (.directory items)) ↔ fs.face? place = some .directory := by
  rw [face?]
  cases fs.at? place with
  | none => simp
  | some i => cases i <;> simp [Item.face]

end FileSystem

namespace Walker

open FileSystem

variable {σ ε : Type} {w : Walker σ ε} {kept : σ → Prop} {fs : FileSystem} {place : List Text}
  {items : List (Text × Item)} {i : Item} {x : σ}

/-- In a directory what a walk finds there now is visited, if of each file it is settled whether it is
taken, and if what is found below each directory in it is visited. -/
theorem enter_eq (hkept : ∀ x p y, kept x → w.visit x p = (y, none) → kept y) (hx : kept x)
    (hfs : (w.files x).IsStepless) (hd : (w.files x).IsDistinct)
    (hitems : (w.files x).at? place = some (.directory items)) {known : List (Text × Stretch σ ε)}
    (htake : ∀ item ∈ items, w.Visits kept (w.take ⟨[CodePoint.slash], place ++ [item.1]⟩)
      (if (w.files x).takes (w.sieve (w.files x)) ⟨[CodePoint.slash], place ++ [item.1]⟩ then
        [⟨[CodePoint.slash], place ++ [item.1]⟩] else []))
    (hinner : ∀ item ∈ items, w.Visits kept
      ((known.lookup item.1).getD (w.belowNew ⟨[CodePoint.slash], place ++ [item.1]⟩))
      (((w.files x).filesBelow (w.sieve (w.files x)) ⟨[CodePoint.slash], place ++ [item.1]⟩ item.2).map
        (·.path))) :
    w.enter ⟨[CodePoint.slash], place⟩ known x =
      Stretch.inTurn ((((w.files x).filesBelow (w.sieve (w.files x)) ⟨[CodePoint.slash], place⟩
        (.directory items)).map (·.path)).map w.visitOnly) x := by
  have hat (item : Text × Item) (hitem : item ∈ items) := hd.at?_child hitems hitem
  have hdots (item : Text × Item) (hitem : item ∈ items) : Path.dotDot ∉ place ++ [item.1] :=
    hfs _ (by simp [face?, hat item hitem])
  rw [enter, paths_filesBelow hdots hat, ← List.flatten_append]
  simp only [hitems]
  refine visits_inTurn hkept (List.rel_append ?_ ?_) x hx
  · rw [List.forall₂_map_left_iff, List.forall₂_map_right_iff]
    refine List.forall₂_same.mpr fun item hitem ↦ ?_
    exact htake item (mem_byName.mp (List.mem_of_mem_filter hitem))
  · rw [List.forall₂_map_left_iff, List.forall₂_map_right_iff]
    refine List.forall₂_same.mpr fun item hitem ↦ ?_
    exact hinner item (List.mem_of_mem_filter (mem_byName.mp hitem))

section Unchanged

variable (hfs : fs.IsStepless) (hd : fs.IsDistinct)
  (hfiles : ∀ x p y, w.files x = fs → w.visit x p = (y, none) → w.files y = fs)

include hfs hd hfiles in
theorem visits_below_of_unchanged (hi : fs.at? place = some i) :
    w.Visits (w.files · = fs) (w.below ⟨[CodePoint.slash], place⟩ i)
      ((fs.filesBelow (w.sieve fs) ⟨[CodePoint.slash], place⟩ i).map (·.path)) := by
  -- The directories in one are found in a list of pairs, so that the size is what decreases.
  induction hsize : sizeOf i using Nat.strong_induction_on generalizing place i with
  | h size ih =>
    cases i with
    | link target =>
      intro x _
      simp [below, filesBelow, Stretch.inTurn]
    | file f =>
      intro x _
      simp [below, filesBelow, Stretch.inTurn]
    | directory items =>
      intro x hx
      have hlookup (item : Text × Item) (hitem : item ∈ items) : items.lookup item.1 = some item.2 :=
        (Item.lookup_eq_some_iff_mem (hd.at? hi).names).mpr hitem
      have hinner (item : Text × Item) (hitem : item ∈ items) : w.Visits (w.files · = fs)
          (((w.belowEach ⟨[CodePoint.slash], place⟩ items).lookup item.1).getD
            (w.belowNew ⟨[CodePoint.slash], place ++ [item.1]⟩))
          (((w.files x).filesBelow (w.sieve (w.files x)) ⟨[CodePoint.slash], place ++ [item.1]⟩ item.2).map
            (·.path)) := by
        rw [lookup_belowEach, hlookup item hitem, hx]
        exact ih (sizeOf item.2) (hsize ▸ Item.sizeOf_lt_of_mem hitem) (hd.at?_child hi hitem) rfl
      have hkept : ∀ x p y, (w.files · = fs) x → w.visit x p = (y, none) → (w.files · = fs) y := hfiles
      have henter := enter_eq hkept hx (hx ▸ hfs) (hx ▸ hd) (hx ▸ hi)
        (fun item _ ↦ visits_take fun y hy ↦ by rw [hx, hy]) hinner
      rw [below, henter, hx]

include hd hfiles in
/-- A walk that leaves the files as they are visits what is found at its start, by links too. -/
theorem visits_walk_of_unchanged (hfs : fs.IsProper) {root : Path}
    (hroot : ∀ t ∈ root.segments, Path.IsSegment t) (hx : w.files x = fs) :
    w.walk root x = Stretch.inTurn (((fs.walk (w.sieve fs) root).map (·.path)).map w.visitOnly) x := by
  rw [walk, hx, FileSystem.walk]
  cases hfind : fs.find? (fs.canonical root) with
  | none => rfl
  | some i =>
    obtain ⟨above, hcanonical, hi⟩ := canonical_of_find? hfs hroot hfind
    simp only [hcanonical]
    exact visits_below_of_unchanged hfs.isStepless hd hfiles hi x hx

end Unchanged

end Walker

namespace ProjectRun

open FileSystem

variable {options : Options} {enabled : List Language} {root p : Path} {fs : FileSystem}
  {run next : ProjectRun}

/-- A run has come from files on to those that it has now. -/
structure ComesFrom (run : ProjectRun) (fs : FileSystem) : Prop where
  evolves : fs.Evolves run.files
  added : fs.AddsCatalogs run.files

theorem ComesFrom.step (h : run.ComesFrom fs) (hl : fs.IsLinkless)
    (hstep : run.step options enabled root p = (next, none)) : next.ComesFrom fs := by
  obtain ⟨v, hends, -⟩ := ends_of_step hstep
  exact ⟨h.evolves.trans hends.evolves, h.added.trans (hends.addsCatalogs (hl.of_extends h.added.toExtends))⟩

end ProjectRun

namespace Settings

open FileSystem

variable {s : Settings} {enabled : List Language} {rules : Ignore.Rules} {fs fs' : FileSystem}
  {root : Path} {place above : List Text} {name : Text} {run : ProjectRun}

/-- What is taken in its turn is settled at the start of the run. -/
theorem takes_iff (hfs : fs.IsStepless) (hl : fs.IsLinkless) (h : fs.AddsCatalogs fs') (root : Text) :
    fs'.takes (s.sieve fs' rules) ⟨root, above ++ [name]⟩ = true ↔
      ∃ g, fs.face? (above ++ [name]) = some (.file g) ∧
        (s.sieve fs rules).Keeps ⟨root, above ++ [name]⟩ g := by
  have hl' := hl.of_extends h.toExtends
  constructor
  · intro htakes
    simp only [takes, Bool.and_eq_true, Option.any_eq_true, Bool.not_eq_true'] at htakes
    obtain ⟨⟨⟨⟨i, hi, hfile⟩, hignored⟩, size, hsize, hfits⟩, hwants⟩ := htakes
    cases i with
    | directory items => cases hfile
    | link target => exact absurd (by rw [face?, hi]; rfl) (hl' (above ++ [name]) target)
    | file g =>
      have hf' := at?_eq_file_iff.mp hi
      have hf := (h.face?_eq_file_iff (not_isCatalogName_of_wants hwants)).mp hf'
      have hdots := hfs.dotDot_notMem hf
      rw [sizeOf?, hl'.find?_place hdots, hi] at hsize
      cases hsize
      exact ⟨g, hf, (keeps_sieve_iff hdots hl hl' hf hf').mp ⟨hignored, hfits, hwants⟩⟩
  · rintro ⟨g, hf, hkeeps⟩
    have hf' := (h.face?_eq_file_iff (not_isCatalogName_of_keeps hkeeps)).mpr hf
    have hdots := hfs.dotDot_notMem hf
    obtain ⟨hignored, hfits, hwants⟩ := (keeps_sieve_iff hdots hl hl' hf hf').mpr hkeeps
    have hi := at?_eq_file_iff.mpr hf'
    have hsize : fs'.sizeOf? ⟨root, above ++ [name]⟩ = some g.bytes.length := by
      rw [sizeOf?, hl'.find?_place hdots, hi]
    simp [takes, hi, hsize, hignored, hfits, hwants, Item.isDirectory]

variable (hfs : fs.IsStepless) (hd : fs.IsDistinct) (hl : fs.IsLinkless)

include hfs in
theorem isStepless_of_comesFrom (h : run.ComesFrom fs) : run.files.IsStepless :=
  h.evolves.isStepless hfs

include hfs hl in
theorem visits_take_own (h : run.ComesFrom fs) (enabled : List Language) (root : Path) (name : Text) :
    (s.walker enabled rules root).Visits (·.ComesFrom fs)
      ((s.walker enabled rules root).take ⟨[CodePoint.slash], place ++ [name]⟩)
      (if run.files.takes (s.sieve run.files rules) ⟨[CodePoint.slash], place ++ [name]⟩ then
        [⟨[CodePoint.slash], place ++ [name]⟩] else []) := by
  refine Walker.visits_take fun x hx ↦ ?_
  exact Bool.eq_iff_iff.mpr ((takes_iff hfs hl hx.added _).trans (takes_iff hfs hl h.added _).symm)

include hfs hd hl in
theorem visits_belowNew (enabled : List Language) (root : Path) (hplace : Path.dotDot ∉ place)
    (hnone : fs.at? place = none) :
    (s.walker enabled rules root).Visits (·.ComesFrom fs)
      ((s.walker enabled rules root).belowNew ⟨[CodePoint.slash], place⟩) [] := by
  intro x hx
  have hx' : (s.walker enabled rules root).files x = x.files := rfl
  rw [Walker.belowNew, hx']
  cases hi : x.files.at? place with
  | none => rfl
  | some i =>
    have hl' := hl.of_extends hx.added.toExtends
    have hempty : x.files.filesBelow (s.sieve x.files rules) ⟨[CodePoint.slash], place⟩ i = [] := by
      rw [← walk_eq_filesBelow hl' hplace hi,
        walk_of_addsCatalogs hfs hd hl (hx.evolves.isDistinct hd) hx.added rules hplace,
        walk_eq_nil hl hplace hnone]
    have hsieve : (s.walker enabled rules root).sieve x.files = s.sieve x.files rules := rfl
    simp only [hsieve, hempty]
    rfl

include hl in
theorem kept_comesFrom (enabled : List Language) (rules : Ignore.Rules) (root : Path) :
    ∀ run p next, run.ComesFrom fs → (s.walker enabled rules root).visit run p = (next, none) →
      next.ComesFrom fs :=
  fun _ _ _ h hvisit ↦ h.step hl hvisit

include hfs hd hl in
/-- In a directory that was there at the start its own files are visited that a walk finds, and then
those below each directory in it. -/
theorem visits_enter {known : List (Text × Stretch ProjectRun Fault)} (hplace : Path.dotDot ∉ place)
    (hi : fs.face? place = some .directory)
    (hknown : ∀ name, Path.dotDot ∉ place ++ [name] → (s.walker enabled rules root).Visits (·.ComesFrom fs)
      ((known.lookup name).getD
        ((s.walker enabled rules root).belowNew ⟨[CodePoint.slash], place ++ [name]⟩))
      ((fs.walk (s.sieve fs rules) ⟨[CodePoint.slash], place ++ [name]⟩).map (·.path))) :
    (s.walker enabled rules root).Visits (·.ComesFrom fs)
      ((s.walker enabled rules root).enter ⟨[CodePoint.slash], place⟩ known)
      ((fs.walk (s.sieve fs rules) ⟨[CodePoint.slash], place⟩).map (·.path)) := by
  intro x hx
  have hl' := hl.of_extends hx.added.toExtends
  have hd' := hx.evolves.isDistinct hd
  obtain ⟨items, hitems⟩ := at?_eq_directory_iff.mpr (hx.added.directory place hi)
  have hat (item : Text × Item) (hitem : item ∈ items) := hd'.at?_child hitems hitem
  have hdots (item : Text × Item) (hitem : item ∈ items) : Path.dotDot ∉ place ++ [item.1] :=
    isStepless_of_comesFrom hfs hx _ (by simp [face?, hat item hitem])
  rw [← walk_of_addsCatalogs hfs hd hl hd' hx.added rules hplace, walk_eq_filesBelow hl' hplace hitems]
  refine Walker.enter_eq (kept_comesFrom hl enabled rules root) hx (isStepless_of_comesFrom hfs hx) hd' hitems
    (fun item _ ↦ visits_take_own hfs hl hx enabled root item.1) fun item hitem ↦ ?_
  have hbelow := hknown item.1 (hdots item hitem)
  rwa [← walk_of_addsCatalogs hfs hd hl hd' hx.added rules (hdots item hitem),
    walk_eq_filesBelow hl' (hdots item hitem) (hat item hitem)] at hbelow

include hfs hd hl in
/-- Below a directory the files are visited that a walk finds there at the start. -/
theorem visits_below (enabled : List Language) (rules : Ignore.Rules) (root : Path) {place : List Text}
    {i : Item} (hplace : Path.dotDot ∉ place) (hi : fs.at? place = some i) :
    (s.walker enabled rules root).Visits (·.ComesFrom fs)
      ((s.walker enabled rules root).below ⟨[CodePoint.slash], place⟩ i)
      ((fs.walk (s.sieve fs rules) ⟨[CodePoint.slash], place⟩).map (·.path)) := by
  induction hsize : sizeOf i using Nat.strong_induction_on generalizing place i with
  | h size ih =>
    cases i with
    | link target => exact absurd (by rw [face?, hi]; rfl) (hl place target)
    | file f =>
      rw [walk_eq_filesBelow hl hplace hi]
      intro x _
      simp [Walker.below, filesBelow, Stretch.inTurn]
    | directory items =>
      rw [Walker.below]
      refine visits_enter hfs hd hl hplace (at?_eq_directory_iff.mp ⟨items, hi⟩) fun name hdots ↦ ?_
      have hstart : fs.at? (place ++ [name]) = items.lookup name := by
        rw [at?, Item.at?_append, ← at?, hi, Option.bind_some, Item.at?]
        cases items.lookup name <;> rfl
      rw [Walker.lookup_belowEach]
      cases hlookup : items.lookup name with
      | none =>
        rw [hlookup] at hstart
        rw [walk_eq_nil hl hdots hstart]
        exact visits_belowNew hfs hd hl enabled root hdots hstart
      | some j =>
        rw [hlookup] at hstart
        have hmem : (name, j) ∈ items := (Item.lookup_eq_some_iff_mem (hd.at? hi).names).mp hlookup
        exact ih (sizeOf j) (hsize ▸ Item.sizeOf_lt_of_mem hmem) hdots hstart rfl

include hfs hd hl in
/-- Without links a run over a project visits the files that a walk finds at its start. -/
theorem visits_walk (s : Settings) (enabled : List Language) (rules : Ignore.Rules) (root : Path) :
    (s.walker enabled rules root).walk (fs.canonical s.root) (.start fs) =
      Stretch.inTurn ((s.walked fs rules).map (s.walker enabled rules root).visitOnly) (.start fs) := by
  obtain ⟨place, hroot, hplace⟩ := hl.exists_canonical_eq s.root
  have hfiles : (s.walker enabled rules root).files (.start fs) = fs := rfl
  rw [walked, Walker.walk, hfiles, hroot, hl.canonical_place hplace]
  simp only [hl.find?_place hplace]
  cases hi : fs.at? place with
  | none =>
    rw [walk_eq_nil hl hplace hi]
    rfl
  | some i => exact visits_below hfs hd hl enabled rules root hplace hi _ ⟨.refl, .refl fs⟩

/-- Of the files that a walk finds at the start of a run the first ones are taken, and all of them if the
run comes to its end, where these are what it visits. -/
theorem taken_of_visits
    (h : (s.walker enabled rules (fs.canonical s.root)).walk (fs.canonical s.root) (.start fs) =
      Stretch.inTurn ((s.walked fs rules).map (s.walker enabled rules (fs.canonical s.root)).visitOnly)
        (.start fs))
    (henabled : Language.enable s.languages = .ok enabled)
    (hrules : Ignore.Rules.load fs (fs.canonical s.root) s.ignore = .ok rules) :
    s.taken fs enabled rules <+: s.walked fs rules ∧
      ((s.extractAll fs).2 = none → s.taken fs enabled rules = s.walked fs rules) := by
  obtain ⟨hfirst, hall⟩ := Walker.visited_isPrefix (s.walker enabled rules (fs.canonical s.root))
    (s.walked fs rules) (.start fs)
  rw [taken, h]
  refine ⟨hfirst, fun hend ↦ hall ?_⟩
  rw [extractAll] at hend
  simpa only [hrules, henabled, Option.map_eq_none_iff, h] using hend

include hfs hd hl in
theorem taken_eq_walked (henabled : Language.enable s.languages = .ok enabled)
    (hrules : Ignore.Rules.load fs (fs.canonical s.root) s.ignore = .ok rules)
    (hend : (s.extractAll fs).2 = none) : s.taken fs enabled rules = s.walked fs rules :=
  (taken_of_visits (visits_walk hfs hd hl s enabled rules _) henabled hrules).2 hend

theorem inTurn_visitOnly (s : Settings) (enabled : List Language) (rules : Ignore.Rules) (root : Path)
    (run : ProjectRun) (ps : List Path) :
    (Stretch.inTurn (ps.map (s.walker enabled rules root).visitOnly) run).2 =
      run.steps s.extraction enabled root ps := by
  induction ps generalizing run with
  | nil => rfl
  | cons p ps ih =>
    rw [Walker.inTurn_visitOnly_cons, ProjectRun.steps]
    have hvisit : (s.walker enabled rules root).visit run p = run.step s.extraction enabled root p := rfl
    rw [hvisit]
    rcases run.step s.extraction enabled root p with ⟨next, _ | fault⟩
    · exact ih next
    · rfl

include hfs hd hl in
/-- Without links a run over a project extracts from the files that a walk finds at its start. -/
theorem extractAll_eq_walked (henabled : Language.enable s.languages = .ok enabled)
    (hrules : Ignore.Rules.load fs (fs.canonical s.root) s.ignore = .ok rules) :
    s.extractAll fs =
      (((ProjectRun.start fs).steps s.extraction enabled (fs.canonical s.root) (s.walked fs rules)).1,
      ((ProjectRun.start fs).steps s.extraction enabled (fs.canonical s.root)
        (s.walked fs rules)).2.map .fault) := by
  rw [extractAll, ← inTurn_visitOnly s enabled rules, ← visits_walk hfs hd hl]
  simp only [hrules, henabled]

end Settings

end MessageExtraction
