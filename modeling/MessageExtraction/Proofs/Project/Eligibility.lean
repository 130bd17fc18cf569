import MessageExtraction.Proofs.Project.WalkOrder

/-!
Which files of a directory tree a walk finds, said of the tree as a whole: each that is to be found is
found once, and in the order of a walk.
-/

namespace MessageExtraction

/-- Nothing speaks against what stands under some names below a directory, nor against a directory on the
way to it. -/
structure Sieve.Admits (s : Sieve) (directory : Path) (names : List Text) (g : File) : Prop where
  unignored : s.ignores (directory.under names) false = false
  entered : ∀ above, above ≠ [] → above <+: names → above ≠ names →
    s.ignores (directory.under above) true = false
  fits : (g.bytes.length : Int) ≤ s.maxKilobytes * 1024
  wanted : ∀ languages ∈ s.languages,
    (Language.ofPath? (directory.under names)).map Language.name ∈ languages

/-- The directories on a way are its beginnings, itself and the empty one apart. -/
theorem Sieve.enters_iff {s : Sieve} {directory : Path} {names : List Text} :
    s.Enters directory names ↔ ∀ above, above ≠ [] → above <+: names → above ≠ names →
      s.ignores (directory.under above) true = false := by
  induction names generalizing directory with
  | nil =>
    refine iff_of_true (by simp [Enters]) ?_
    intro above hne habove
    exact absurd (List.prefix_nil.mp habove) hne
  | cons name names ih =>
    by_cases hnames : names = []
    · subst hnames
      refine iff_of_true (by simp [Enters]) ?_
      intro above hne habove hproper
      exact absurd (habove.eq_of_length_le (List.length_pos_iff.mpr hne)) hproper
    rw [enters_cons hnames, ih]
    constructor
    · rintro ⟨hname, hbelow⟩ above hne habove hproper
      obtain ⟨first, rest, rfl⟩ := List.exists_cons_of_ne_nil hne
      obtain ⟨rfl, hrest⟩ := List.cons_prefix_cons.mp habove
      by_cases hempty : rest = []
      · subst hempty
        exact hname
      · rw [← Path.child_under]
        exact hbelow rest hempty hrest fun h ↦ hproper (by rw [h])
    · intro h
      refine ⟨h [name] (by simp) (by simp) (by simp [Ne.symm hnames]), ?_⟩
      intro above hne habove hproper
      rw [Path.child_under]
      exact h (name :: above) (by simp) (List.cons_prefix_cons.mpr ⟨rfl, habove⟩) (by simp [hproper])

theorem Sieve.admits_iff {s : Sieve} {directory : Path} {names : List Text} {g : File} :
    s.Admits directory names g ↔ s.Enters directory names ∧ s.Keeps (directory.under names) g := by
  have hwants (language : Option Language) :
      s.wants language = true ↔ ∀ languages ∈ s.languages, language.map Language.name ∈ languages := by
    rw [wants, Option.all_eq_true]
    simp only [List.contains_iff_mem, Option.mem_def]
  rw [Keeps, enters_iff, fits, decide_eq_true_eq, hwants]
  constructor
  · intro h
    exact ⟨h.entered, h.unignored, h.fits, h.wanted⟩
  · rintro ⟨hentered, hunignored, hfits, hwanted⟩
    exact ⟨hunignored, hentered, hfits, hwanted⟩

namespace FileSystem

variable {fs : FileSystem} {s : Sieve} {p : Path} {i : Item}

/-- A walk over a tree without links finds each of its files that is admitted and no other, once, with
its language and size: the files of a directory by name, and then those in its directories by name. -/
theorem walk_finds_admitted (hi : fs.find? (fs.canonical p) = some i) (hd : i.IsDistinct)
    (hl : i.IsLinkless) :
    (∀ f, f ∈ fs.walk s p ↔ ∃ names g, names ≠ [] ∧ i.at? names = some (.file g) ∧
      s.Admits (fs.canonical p) names g ∧ f = .of ((fs.canonical p).under names) g) ∧
    ((fs.walk s p).map (·.path)).Nodup ∧
    (fs.walk s p).Pairwise fun f g ↦ Earlier f.path.segments g.path.segments := by
  have hwalk : fs.walk s p = fs.filesBelow s (fs.canonical p) i := by
    rw [walk]
    simp only [hi]
  have hordered : (fs.filesBelow s (fs.canonical p) i).Pairwise fun f g ↦
      Earlier f.path.segments g.path.segments :=
    pairwise_filesBelow hd hl (fs.canonical p)
  rw [hwalk]
  refine ⟨?_, ?_, hordered⟩
  · intro f
    rw [mem_filesBelow_iff hd hl]
    simp only [Sieve.admits_iff, and_assoc]
  · refine List.pairwise_map.mpr (hordered.imp ?_)
    intro f g hfg hpath
    rw [hpath] at hfg
    exact hfg.asymm hfg

section SmallTree

/-- An empty file and one that is not, beside two directories with a file each. -/
def smallTree : Item :=
  .directory [("b.js", .file ⟨[], none, none⟩),
    ("lib", .directory [("x.ts", .file ⟨[], none, none⟩)]),
    ("dist", .directory [("y.js", .file ⟨[], none, none⟩)]),
    ("a.js", .file ⟨[0], none, none⟩)]

/-- Passes over what is called `dist` and what is not empty. -/
def smallSieve : Sieve := ⟨fun p _ ↦ p.name == Text.ofString "dist", 0, none⟩

theorem isDistinct_smallTree : smallTree.IsDistinct := by
  have hfile (f : File) : (Item.file f).IsDistinct := Item.isDistinct_bare trivial
  have hone (name : Text) (f : File) : (Item.directory [(name, .file f)]).IsDistinct :=
    Item.isDistinct_directory (by simp) (by simp [hfile])
  exact Item.isDistinct_directory (by decide) (by simp [hfile, hone])

theorem isLinkless_smallTree : smallTree.IsLinkless := by
  have hfile (f : File) : (Item.file f).IsLinkless := by
    intro q target hq
    cases q <;> cases hq
  have hone (name : Text) (f : File) : (Item.directory [(name, .file f)]).IsLinkless :=
    Item.isLinkless_directory (by simp [hfile])
  exact Item.isLinkless_directory (by simp [hfile, hone])

/-- The file in one of the directories is found, and none in the other. -/
theorem smallTree_walked :
    (FileSystem.mk smallTree).find? ((FileSystem.mk smallTree).canonical "/") = some smallTree ∧
      ⟨"/lib/x.ts", some .typescript, 0⟩ ∈ (FileSystem.mk smallTree).walk smallSieve "/" ∧
      (∀ f ∈ (FileSystem.mk smallTree).walk smallSieve "/", f.path.segments.head? ≠ some "dist") ∧
      ((FileSystem.mk smallTree).walk smallSieve "/").Pairwise fun f g ↦
        Earlier f.path.segments g.path.segments := by
  have hi : (FileSystem.mk smallTree).find? ((FileSystem.mk smallTree).canonical "/") =
      some smallTree := rfl
  have hroot : (FileSystem.mk smallTree).canonical "/" = ⟨[CodePoint.slash], []⟩ := rfl
  obtain ⟨hfound, -, hordered⟩ :=
    walk_finds_admitted (s := smallSieve) hi isDistinct_smallTree isLinkless_smallTree
  rw [hroot] at hfound
  refine ⟨hi, ?_, ?_, hordered⟩
  · refine (hfound _).mpr ⟨["lib", "x.ts"], ⟨[], none, none⟩, by simp, rfl, ?_, by decide⟩
    rw [Sieve.admits_iff]
    exact ⟨⟨by decide, trivial⟩, by decide, by decide, by decide⟩
  · intro f hf hdist
    obtain ⟨names, g, -, hg, hadmits, rfl⟩ := (hfound f).mp hf
    obtain ⟨rest, rfl⟩ : ∃ rest, names = Text.ofString "dist" :: rest := by
      cases names with
      | nil => cases hdist
      | cons name rest => exact ⟨rest, by rw [Option.some.inj hdist]⟩
    by_cases hrest : rest = []
    · subst hrest
      cases hg
    · have hentered := hadmits.entered [Text.ofString "dist"] (by simp) (by simp) (by simp [Ne.symm hrest])
      cases hentered

end SmallTree

end FileSystem

end MessageExtraction
