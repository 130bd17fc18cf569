import Mathlib.Data.List.Lex
import Mathlib.Data.List.Nodup
import Mathlib.Order.Lattice
import MessageExtraction.Proofs.FileSystem.Evolution
import MessageExtraction.Proofs.FileSystem.Linkless
import MessageExtraction.Proofs.Project.Walk

/-!
What a walk finds and in which order. Where names are distinct and there are no links, it finds each file
that nothing speaks against once, those of a directory by name and before all that is in the directories in
it. So what is found depends on what stands where, and not on how directories list it.
-/

namespace MessageExtraction

namespace Text

/-- Texts are ordered as lists of code points are. -/
theorem le_iff (s t : Text) : le s t = true ↔ s ≤ t := by
  rw [← not_lt]
  induction s generalizing t with
  | nil => simp [le]
  | cons c s ih =>
    cases t with
    | nil => simp [le]
    | cons d t =>
      rw [le, Bool.or_eq_true, Bool.and_eq_true, decide_eq_true_eq, beq_iff_eq, ih,
        List.cons_lt_cons_iff]
      constructor
      · rintro (h | ⟨rfl, h⟩) (h' | ⟨h', h''⟩)
        · exact lt_asymm h h'
        · exact h.ne' h'
        · exact lt_irrefl _ h'
        · exact h h''
      · intro h
        rcases lt_trichotomy c d with hlt | rfl | hgt
        · exact .inl hlt
        · exact .inr ⟨rfl, fun h' ↦ h (.inr ⟨rfl, h'⟩)⟩
        · exact absurd (.inl hgt) h

end Text

namespace FileSystem

/-- Comes earlier on a walk: a file before those with later names, and before all that is in directories;
and what is in a directory before what is in one with a later name. -/
def Earlier : List Text → List Text → Prop
  | [a], [b] => a < b
  | [_], _ :: _ :: _ => True
  | a :: x :: xs, b :: y :: ys => a < b ∨ a = b ∧ Earlier (x :: xs) (y :: ys)
  | _, _ => False

theorem Earlier.ne_nil {p q : List Text} (h : Earlier p q) : p ≠ [] ∧ q ≠ [] := by
  constructor
  · rintro rfl
    simp [Earlier] at h
  · rintro rfl
    cases p with
    | nil => simp [Earlier] at h
    | cons a p => cases p <;> simp [Earlier] at h

theorem earlier_cons {a b : Text} {p q : List Text} (hp : p ≠ []) (hq : q ≠ []) :
    Earlier (a :: p) (b :: q) ↔ a < b ∨ a = b ∧ Earlier p q := by
  obtain ⟨x, xs, rfl⟩ := List.exists_cons_of_ne_nil hp
  obtain ⟨y, ys, rfl⟩ := List.exists_cons_of_ne_nil hq
  rw [Earlier]

theorem Earlier.asymm {p q : List Text} (h : Earlier p q) : ¬Earlier q p := by
  induction p generalizing q with
  | nil => exact absurd rfl h.ne_nil.1
  | cons a p ih =>
    obtain ⟨b, q, rfl⟩ := List.exists_cons_of_ne_nil h.ne_nil.2
    intro h'
    by_cases hp : p = []
    · subst hp
      cases q with
      | nil => exact lt_asymm h h'
      | cons y ys => simp [Earlier] at h'
    · by_cases hq : q = []
      · subst hq
        obtain ⟨x, xs, rfl⟩ := List.exists_cons_of_ne_nil hp
        simp [Earlier] at h
      · obtain hab | ⟨rfl, hinner⟩ := (earlier_cons hp hq).mp h
        · obtain hba | ⟨rfl, -⟩ := (earlier_cons hq hp).mp h'
          · exact lt_asymm hab hba
          · exact lt_irrefl _ hab
        · obtain hba | ⟨-, hinner'⟩ := (earlier_cons hq hp).mp h'
          · exact lt_irrefl _ hba
          · exact ih hinner hinner'

theorem Earlier.append {p q : List Text} (above : List Text) (h : Earlier p q) :
    Earlier (above ++ p) (above ++ q) := by
  induction above with
  | nil => exact h
  | cons a above ih =>
    rw [List.cons_append, List.cons_append, earlier_cons ih.ne_nil.1 ih.ne_nil.2]
    exact .inr ⟨rfl, ih⟩

section Sorting

variable {α : Type}

/-- Things with distinct names are put into the order of their names. -/
theorem pairwise_byName {named : List (Text × α)} (h : (named.map Prod.fst).Nodup) :
    (byName named).Pairwise fun a b ↦ a.1 < b.1 := by
  have hle : (byName named).Pairwise fun a b ↦ Text.le a.1 b.1 = true := List.pairwise_mergeSort
    (fun a b c ↦ by simpa only [Text.le_iff] using le_trans)
    (fun a b ↦ by simpa only [Bool.or_eq_true, Text.le_iff] using le_total a.1 b.1) named
  have hperm := List.mergeSort_perm named fun a b ↦ Text.le a.1 b.1
  have hne : (byName named).Pairwise fun a b ↦ a.1 ≠ b.1 :=
    List.pairwise_map.mp ((hperm.map Prod.fst).nodup_iff.mpr h)
  exact (hle.and hne).imp fun ⟨h, h'⟩ ↦ lt_of_le_of_ne ((Text.le_iff _ _).mp h) h'

end Sorting

end FileSystem

namespace Item

/-- The names in each directory are distinct. -/
def IsDistinct (i : Item) : Prop :=
  ∀ q items, i.at? q = some (.directory items) → (items.map Prod.fst).Nodup

/-- There are no links. -/
def IsLinkless (i : Item) : Prop := ∀ q target, i.at? q ≠ some (.link target)

theorem lookup_eq_some_iff_mem {items : List (Text × Item)} (h : (items.map Prod.fst).Nodup)
    {name : Text} {i : Item} : items.lookup name = some i ↔ (name, i) ∈ items := by
  induction items with
  | nil => simp
  | cons item items ih =>
    obtain ⟨n, j⟩ := item
    rw [List.map_cons, List.nodup_cons] at h
    rw [lookup_cons_eq_ite, List.mem_cons]
    split
    · rename_i hn
      subst hn
      have hnot : (name, i) ∉ items := fun hi ↦ h.1 (List.mem_map.mpr ⟨_, hi, rfl⟩)
      simp [hnot, eq_comm]
    · rename_i hn
      simp [hn, ih h.2]

theorem IsDistinct.names {items : List (Text × Item)} (h : (directory items).IsDistinct) :
    (items.map Prod.fst).Nodup :=
  h [] items rfl

theorem at?_cons_of_mem {items : List (Text × Item)} (h : (directory items).IsDistinct) {name : Text}
    {i : Item} (hi : (name, i) ∈ items) (q : List Text) : (directory items).at? (name :: q) = i.at? q := by
  rw [at?, (lookup_eq_some_iff_mem h.names).mpr hi, Option.bind_some]

theorem IsDistinct.of_mem {items : List (Text × Item)} (h : (directory items).IsDistinct) {name : Text}
    {i : Item} (hi : (name, i) ∈ items) : i.IsDistinct := by
  intro q inner hq
  exact h (name :: q) inner (by rwa [at?_cons_of_mem h hi])

theorem IsLinkless.of_mem {items : List (Text × Item)} (hl : (directory items).IsLinkless)
    (h : (directory items).IsDistinct) {name : Text} {i : Item} (hi : (name, i) ∈ items) :
    i.IsLinkless := by
  intro q target hq
  exact hl (name :: q) target (by rwa [at?_cons_of_mem h hi])

theorem nodup_assign {items : List (Text × Item)} (h : (items.map Prod.fst).Nodup) (name : Text)
    (i : Item) : ((assign name i items).map Prod.fst).Nodup := by
  have hnames : (assign name i items).map Prod.fst =
      if name ∈ items.map Prod.fst then items.map Prod.fst else items.map Prod.fst ++ [name] := by
    clear h
    induction items with
    | nil => rfl
    | cons item items ih =>
      obtain ⟨n, old⟩ := item
      rw [assign]
      by_cases hn : n = name
      · simp [hn]
      · rw [if_neg hn, List.map_cons, ih, List.map_cons]
        by_cases hmem : name ∈ items.map Prod.fst <;> simp [hmem, Ne.symm hn]
  rw [hnames]
  split
  · exact h
  · rename_i hname
    exact List.nodup_append.mpr ⟨h, by simp, by rintro a ha b hb rfl; simp_all⟩

theorem IsDistinct.of_lookup {items : List (Text × Item)} (h : (directory items).IsDistinct)
    {name : Text} {i : Item} (hi : items.lookup name = some i) : i.IsDistinct :=
  h.of_mem ((lookup_eq_some_iff_mem h.names).mp hi)

theorem isDistinct_bare {i : Item} (h : i.IsBare) : i.IsDistinct := by
  intro q items hq
  cases q with
  | nil =>
    cases hq
    cases h
    exact .nil
  | cons name q =>
    rw [at?_of_isBare h] at hq
    cases hq

theorem IsDistinct.set {i new : Item} (h : i.IsDistinct) (hnew : new.IsBare) (place : List Text) :
    (set new place i).IsDistinct := by
  induction place generalizing i with
  | nil => exact isDistinct_bare hnew
  | cons name rest ih =>
    cases i with
    | file f => exact h
    | link target => exact h
    | directory items =>
      intro q inner hq
      rw [Item.set] at hq
      cases q with
      | nil =>
        cases hq
        exact nodup_assign h.names name _
      | cons n q =>
        rw [at?, lookup_assign] at hq
        split at hq
        · refine ih ?_ q inner hq
          split
          · exact h.of_lookup ‹_›
          · exact isDistinct_bare rfl
        · exact h (n :: q) inner hq

theorem isDistinct_directory {items : List (Text × Item)} (h : (items.map Prod.fst).Nodup)
    (hitems : ∀ item ∈ items, item.2.IsDistinct) : (directory items).IsDistinct := by
  intro q inner hq
  cases q with
  | nil =>
    cases hq
    exact h
  | cons name q =>
    rw [at?] at hq
    obtain ⟨i, hi, hq⟩ := Option.bind_eq_some_iff.mp hq
    exact hitems _ ((lookup_eq_some_iff_mem h).mp hi) q inner hq

theorem isLinkless_directory {items : List (Text × Item)}
    (hitems : ∀ item ∈ items, item.2.IsLinkless) : (directory items).IsLinkless := by
  intro q target hq
  cases q with
  | nil => cases hq
  | cons name q =>
    rw [at?] at hq
    obtain ⟨i, hi, hq⟩ := Option.bind_eq_some_iff.mp hq
    obtain ⟨before, after, hsplit, -⟩ := List.lookup_eq_some_iff.mp hi
    exact hitems (name, i) (hsplit ▸ List.mem_append_right _ List.mem_cons_self) q target hq

end Item

/-- Nothing speaks against a file under a path. -/
def Sieve.Keeps (s : Sieve) (p : Path) (g : File) : Prop :=
  s.ignores p false = false ∧ s.fits g.bytes.length = true ∧ s.wants (Language.ofPath? p) = true

/-- The directories on the way to a file are entered. -/
def Sieve.Enters (s : Sieve) : Path → List Text → Prop
  | directory, name :: next :: rest =>
    s.ignores (directory.child name) true = false ∧ s.Enters (directory.child name) (next :: rest)
  | _, _ => True

theorem Sieve.enters_cons {s : Sieve} {directory : Path} {name : Text} {names : List Text}
    (h : names ≠ []) : s.Enters directory (name :: names) ↔
      s.ignores (directory.child name) true = false ∧ s.Enters (directory.child name) names := by
  obtain ⟨next, rest, rfl⟩ := List.exists_cons_of_ne_nil h
  rw [Enters]

/-- A file as it is found under a path. -/
def FoundFile.of (p : Path) (g : File) : FoundFile := ⟨p, Language.ofPath? p, g.bytes.length⟩

namespace FileSystem

variable {fs : FileSystem} {s : Sieve} {directory : Path} {f : FoundFile} {items : List (Text × Item)}

theorem foundFile?_file {name : Text} {g : File} :
    fs.foundFile? s directory name (.file g) = some f ↔
      s.Keeps (directory.child name) g ∧ f = .of (directory.child name) g := by
  have hfound : fs.foundFile? s directory name (.file g) =
      if !s.ignores (directory.child name) false && s.fits g.bytes.length &&
        s.wants (Language.ofPath? (directory.child name)) then some (.of (directory.child name) g)
      else none := rfl
  rw [hfound, Sieve.Keeps]
  split
  · rename_i h
    simp only [Bool.and_eq_true, Bool.not_eq_true'] at h
    simp [h, eq_comm]
  · rename_i h
    simp only [Bool.and_eq_true, Bool.not_eq_true', and_assoc] at h
    simp [h]

theorem mem_ownFiles_iff (hl : ∀ name target, (name, Item.link target) ∉ items) :
    f ∈ fs.ownFiles s directory items ↔
      ∃ name g, (name, Item.file g) ∈ items ∧ s.Keeps (directory.child name) g ∧
        f = .of (directory.child name) g := by
  rw [mem_ownFiles]
  refine exists_congr fun name ↦ ⟨?_, ?_⟩
  · rintro ⟨i, hi, hfound⟩
    cases i with
    | file g => exact ⟨g, hi, foundFile?_file.mp hfound⟩
    | link target => exact absurd hi (hl name target)
    | directory inner => cases hfound
  · rintro ⟨g, hi, hkept⟩
    exact ⟨_, hi, foundFile?_file.mpr hkept⟩

theorem filesByName_eq (fs : FileSystem) (s : Sieve) (directory : Path) (items : List (Text × Item)) :
    fs.filesByName s directory items =
      (items.filter fun (name, i) ↦ i.isDirectory && !s.ignores (directory.child name) true).map
        fun (name, i) ↦ (name, fs.filesBelow s (directory.child name) i) := by
  induction items with
  | nil => rw [filesByName]; rfl
  | cons item items ih =>
    rw [filesByName, List.filter_cons]
    split
    · rw [ih, List.map_cons]
    · exact ih

theorem mem_filesByName_iff {name : Text} {found : List FoundFile} :
    (name, found) ∈ fs.filesByName s directory items ↔
      ∃ i, (name, i) ∈ items ∧ i.isDirectory = true ∧
        s.ignores (directory.child name) true = false ∧
        found = fs.filesBelow s (directory.child name) i := by
  rw [filesByName_eq]
  simp only [List.mem_map, List.mem_filter, Bool.and_eq_true, Bool.not_eq_true', Prod.mk.injEq,
    Prod.exists]
  constructor
  · rintro ⟨n, i, ⟨hi, hd, hentered⟩, rfl, rfl⟩
    exact ⟨i, hi, hd, hentered, rfl⟩
  · rintro ⟨i, hi, hd, hentered, rfl⟩
    exact ⟨name, i, ⟨hi, hd, hentered⟩, rfl, rfl⟩

theorem mem_filesBelow_directory {directory : Path} (hl : ∀ name target, (name, Item.link target) ∉ items) :
    f ∈ fs.filesBelow s directory (.directory items) ↔
      (∃ name g, (name, Item.file g) ∈ items ∧ s.Keeps (directory.child name) g ∧
        f = .of (directory.child name) g) ∨
      ∃ name i, (name, i) ∈ items ∧ i.isDirectory = true ∧
        s.ignores (directory.child name) true = false ∧ f ∈ fs.filesBelow s (directory.child name) i := by
  rw [filesBelow, List.mem_append, mem_ownFiles_iff hl, List.mem_flatten]
  refine or_congr_right ⟨?_, ?_⟩
  · rintro ⟨found, hfound, hf⟩
    obtain ⟨name, hfound⟩ := mem_inOrder.mp hfound
    obtain ⟨i, hi, hd, hentered, rfl⟩ := mem_filesByName_iff.mp hfound
    exact ⟨name, i, hi, hd, hentered, hf⟩
  · rintro ⟨name, i, hi, hd, hentered, hf⟩
    exact ⟨_, mem_inOrder.mpr ⟨name, mem_filesByName_iff.mpr ⟨i, hi, hd, hentered, rfl⟩⟩, hf⟩

/-- What is found below something is each file that stands there, with nothing that speaks against it and
all directories on the way entered. -/
theorem mem_filesBelow_iff {i : Item} (hd : i.IsDistinct) (hl : i.IsLinkless) {directory : Path} :
    f ∈ fs.filesBelow s directory i ↔
      ∃ names g, names ≠ [] ∧ i.at? names = some (.file g) ∧ s.Enters directory names ∧
        s.Keeps (directory.under names) g ∧ f = .of (directory.under names) g := by
  cases i with
  | link target => exact absurd rfl (hl [] target)
  | file g =>
    refine iff_of_false (by simp [filesBelow]) ?_
    rintro ⟨names, g', hne, hat, -⟩
    obtain ⟨name, rest, rfl⟩ := List.exists_cons_of_ne_nil hne
    cases hat
  | directory items =>
    have hlinks : ∀ name target, (name, Item.link target) ∉ items := fun name target h ↦
      hl.of_mem hd h [] target rfl
    rw [mem_filesBelow_directory hlinks]
    constructor
    · rintro (⟨name, g, hi, hkept, rfl⟩ | ⟨name, i, hi, -, hentered, hf⟩)
      · exact ⟨[name], g, by simp, by rw [Item.at?_cons_of_mem hd hi]; rfl, trivial, hkept, rfl⟩
      · have := Item.sizeOf_lt_of_mem hi
        obtain ⟨names, g, hne, hat, henters, hkept, rfl⟩ :=
          (mem_filesBelow_iff (hd.of_mem hi) (hl.of_mem hd hi)).mp hf
        rw [Path.child_under] at hkept ⊢
        refine ⟨name :: names, g, by simp, ?_, (Sieve.enters_cons hne).mpr ⟨hentered, henters⟩, hkept, rfl⟩
        rw [Item.at?_cons_of_mem hd hi, hat]
    · rintro ⟨names, g, hne, hat, henters, hkept, hf⟩
      obtain ⟨name, rest, rfl⟩ := List.exists_cons_of_ne_nil hne
      rw [Item.at?] at hat
      obtain ⟨i, hi, hat⟩ := Option.bind_eq_some_iff.mp hat
      rw [Item.lookup_eq_some_iff_mem hd.names] at hi
      by_cases hrest : rest = []
      · subst hrest
        cases hat
        exact .inl ⟨name, g, hi, hkept, hf⟩
      · have := Item.sizeOf_lt_of_mem hi
        obtain ⟨hentered, henters⟩ := (Sieve.enters_cons hrest).mp henters
        have hdirectory : i.isDirectory = true := by
          obtain ⟨next, more, rfl⟩ := List.exists_cons_of_ne_nil hrest
          cases i with
          | directory inner => rfl
          | file g' => cases hat
          | link target => cases hat
        refine .inr ⟨name, i, hi, hdirectory, hentered, ?_⟩
        rw [← Path.child_under] at hkept hf
        exact (mem_filesBelow_iff (hd.of_mem hi) (hl.of_mem hd hi)).mpr
          ⟨rest, g, hrest, hat, henters, hkept, hf⟩
termination_by sizeOf i

theorem pairwise_inOrder {α : Type} {named : List (Text × α)} {R : α → α → Prop}
    (h : (named.map Prod.fst).Nodup)
    (hR : ∀ a ∈ named, ∀ b ∈ named, a.1 < b.1 → R a.2 b.2) : (inOrder named).Pairwise R := by
  rw [inOrder, List.pairwise_map]
  refine List.Pairwise.imp_of_mem ?_ (pairwise_byName h)
  intro a b ha hb hab
  exact hR a (mem_byName.mp ha) b (mem_byName.mp hb) hab

/-- What is found comes in the order of a walk. -/
theorem pairwise_filesBelow {i : Item} (hd : i.IsDistinct) (hl : i.IsLinkless) (directory : Path) :
    (fs.filesBelow s directory i).Pairwise fun f g ↦ Earlier f.path.segments g.path.segments := by
  cases i with
  | link target => exact absurd rfl (hl [] target)
  | file g => simp [filesBelow]
  | directory items =>
    have hlinks : ∀ name target, (name, Item.link target) ∉ items := fun name target h ↦
      hl.of_mem hd h [] target rfl
    -- Where a file of the directory itself is found, and one of those in it.
    have hsub : ∀ name i, (name, i) ∈ items → ∀ f ∈ fs.filesBelow s (directory.child name) i,
        ∃ names, names ≠ [] ∧ f.path.segments = directory.segments ++ name :: names := by
      intro name i hi f hf
      obtain ⟨names, g, hne, -, -, -, rfl⟩ :=
        (mem_filesBelow_iff (hd.of_mem hi) (hl.of_mem hd hi)).mp hf
      refine ⟨names, hne, ?_⟩
      rw [Path.child_under]
      rfl
    rw [filesBelow, List.pairwise_append]
    refine ⟨?_, List.pairwise_flatten.mpr ⟨?_, ?_⟩, ?_⟩
    · refine List.pairwise_filterMap.mpr ((pairwise_byName hd.names).imp ?_)
      intro a b hab f hf g hg
      rw [path_of_foundFile? hf, path_of_foundFile? hg]
      exact Earlier.append (p := [a.1]) (q := [b.1]) directory.segments hab
    · intro found hfound
      obtain ⟨name, hfound⟩ := mem_inOrder.mp hfound
      obtain ⟨i, hi, -, -, rfl⟩ := mem_filesByName_iff.mp hfound
      have := Item.sizeOf_lt_of_mem hi
      exact pairwise_filesBelow (hd.of_mem hi) (hl.of_mem hd hi) _
    · refine pairwise_inOrder ?_ ?_
      · rw [filesByName_eq, List.map_map]
        exact (List.filter_sublist.map Prod.fst).nodup hd.names
      · rintro ⟨a, found⟩ ha ⟨b, found'⟩ hb hab f hf g hg
        obtain ⟨i, hi, -, -, rfl⟩ := mem_filesByName_iff.mp ha
        obtain ⟨j, hj, -, -, rfl⟩ := mem_filesByName_iff.mp hb
        obtain ⟨names, hne, hf⟩ := hsub a i hi f hf
        obtain ⟨names', hne', hg⟩ := hsub b j hj g hg
        rw [hf, hg]
        exact Earlier.append _ ((earlier_cons hne hne').mpr (.inl hab))
    · intro f hf g hg
      obtain ⟨name, file, -, -, rfl⟩ := (mem_ownFiles_iff hlinks).mp hf
      obtain ⟨found, hfound, hg⟩ := List.mem_flatten.mp hg
      obtain ⟨other, hfound⟩ := mem_inOrder.mp hfound
      obtain ⟨i, hi, -, -, rfl⟩ := mem_filesByName_iff.mp hfound
      obtain ⟨names, hne, hg⟩ := hsub other i hi g hg
      obtain ⟨next, rest, rfl⟩ := List.exists_cons_of_ne_nil hne
      rw [hg]
      exact Earlier.append (p := [name]) (q := other :: next :: rest) directory.segments trivial
termination_by sizeOf i

/-- What is found depends on what stands where, and not on how it is listed. -/
theorem eq_of_pairwise_earlier {found found' : List FoundFile}
    (h : found.Pairwise fun f g ↦ Earlier f.path.segments g.path.segments)
    (h' : found'.Pairwise fun f g ↦ Earlier f.path.segments g.path.segments)
    (hmem : ∀ f, f ∈ found ↔ f ∈ found') : found = found' := by
  have hne {f g : FoundFile} (hfg : Earlier f.path.segments g.path.segments) : f ≠ g := by
    rintro rfl
    exact hfg.asymm hfg
  refine List.Perm.eq_of_pairwise ?_ h h' ((List.perm_ext_iff_of_nodup (h.imp hne) (h'.imp hne)).mpr hmem)
  intro f g _ _ hfg hgf
  exact absurd hgf hfg.asymm

section Distinct

variable {fs fs' : FileSystem}

/-- The names in each directory are distinct. -/
def IsDistinct (fs : FileSystem) : Prop := fs.top.IsDistinct

theorem IsDistinct.set (h : fs.IsDistinct) {new : Item} (hnew : new.IsBare) (place : List Text) :
    (fs.set place new).IsDistinct :=
  Item.IsDistinct.set h hnew place

theorem Evolves.isDistinct (h : fs.Evolves fs') (hd : fs.IsDistinct) : fs'.IsDistinct := by
  induction h with
  | refl => exact hd
  | made _ _ _ _ ih => exact ih.set (show (Item.directory []).IsBare from rfl) _
  | written _ _ _ ih => exact ih.set (show (Item.file _).IsBare from trivial) _

end Distinct

section Walks

variable {place names : List Text}

theorem IsDistinct.at? (h : fs.IsDistinct) {i : Item} (hi : fs.at? place = some i) : i.IsDistinct := by
  intro q items hq
  refine h (place ++ q) items ?_
  rw [Item.at?_append, ← FileSystem.at?, hi, Option.bind_some, hq]

theorem IsLinkless.at? (h : fs.IsLinkless) {i : Item} (hi : fs.at? place = some i) : i.IsLinkless := by
  intro q target hq
  refine h (place ++ q) target ?_
  rw [face?, FileSystem.at?, Item.at?_append, ← FileSystem.at?, hi, Option.bind_some, hq]
  rfl

theorem isLinkless_of_top (h : fs.top.IsLinkless) : fs.IsLinkless := by
  intro q target hq
  obtain ⟨i, hi, hface⟩ := Option.map_eq_some_iff.mp hq
  cases i with
  | link t => exact h q t hi
  | file f => cases hface
  | directory items => cases hface

theorem at?_eq_file_iff {g : File} : fs.at? place = some (.file g) ↔ fs.face? place = some (.file g) := by
  rw [face?]
  cases fs.at? place with
  | none => simp
  | some i => cases i <;> simp [Item.face]

/-- What a walk finds: each file below that nothing speaks against, with all directories on the way
entered. -/
theorem mem_walk_iff (hd : fs.IsDistinct) (hl : fs.IsLinkless) (hplace : Path.dotDot ∉ place) :
    f ∈ fs.walk s ⟨[CodePoint.slash], place⟩ ↔
      ∃ names g, names ≠ [] ∧ fs.face? (place ++ names) = some (.file g) ∧
        s.Enters ⟨[CodePoint.slash], place⟩ names ∧ s.Keeps ⟨[CodePoint.slash], place ++ names⟩ g ∧
        f = .of ⟨[CodePoint.slash], place ++ names⟩ g := by
  rw [walk, hl.canonical_place hplace]
  simp only [hl.find?_place hplace]
  have hbelow (names : List Text) : fs.at? (place ++ names) = (fs.at? place).bind (Item.at? names) :=
    Item.at?_append _ _ _
  simp only [← at?_eq_file_iff, hbelow]
  cases hi : fs.at? place with
  | none => simp
  | some i => exact mem_filesBelow_iff (hd.at? hi) (hl.at? hi)

theorem pairwise_walk (hd : fs.IsDistinct) (hl : fs.IsLinkless) (hplace : Path.dotDot ∉ place) :
    (fs.walk s ⟨[CodePoint.slash], place⟩).Pairwise fun f g ↦
      Earlier f.path.segments g.path.segments := by
  rw [walk, hl.canonical_place hplace]
  simp only [hl.find?_place hplace]
  cases hi : fs.at? place with
  | none => exact .nil
  | some i => exact pairwise_filesBelow (hd.at? hi) (hl.at? hi) _

theorem IsLinkless.isDirectory_file (h : fs.IsLinkless) (hnames : Path.dotDot ∉ names)
    (hf : fs.face? names = some (.file g)) (root : Text) : fs.isDirectory ⟨root, names⟩ = false := by
  rw [isDirectory, h.find?_place hnames, at?_eq_file_iff.mpr hf]
  rfl

end Walks

end FileSystem

end MessageExtraction
