import Mathlib.Logic.Function.Basic
import MessageExtraction.FileSystem.Write

/-!
Files as a map from places to what stands there. A directory that is made and a file that is written
change one value of this map, and where a path leads depends on the map alone.
-/

namespace MessageExtraction

/-- What stands at a place, a directory apart from what is in it. -/
inductive Face where
  | file (f : File)
  | link (target : Path)
  | directory

namespace Item

def face : Item → Face
  | .file f => .file f
  | .link target => .link target
  | .directory _ => .directory

/-- Nothing stands below. -/
def IsBare : Item → Prop
  | .directory items => items = []
  | _ => True

theorem at?_append (i : Item) (above below : List Text) :
    i.at? (above ++ below) = (i.at? above).bind (at? below) := by
  induction above generalizing i with
  | nil => rfl
  | cons name above ih =>
    cases i with
    | directory items =>
      rw [List.cons_append, at?, at?, Option.bind_assoc]
      exact congrArg _ (funext ih)
    | file f => rfl
    | link target => rfl

theorem at?_of_isBare {i : Item} (h : i.IsBare) (name : Text) (rest : List Text) :
    i.at? (name :: rest) = none := by
  cases i with
  | directory items =>
    cases h
    rfl
  | file f => rfl
  | link target => rfl

theorem lookup_cons_eq_ite (n m : Text) (i : Item) (items : List (Text × Item)) :
    ((m, i) :: items).lookup n = if n = m then some i else items.lookup n := by
  rw [List.lookup_cons]
  by_cases h : n = m
  · rw [if_pos h, beq_iff_eq.mpr h]
  · rw [if_neg h, beq_eq_false_iff_ne.mpr h]

theorem lookup_assign (name n : Text) (i : Item) (items : List (Text × Item)) :
    (assign name i items).lookup n = if n = name then some i else items.lookup n := by
  induction items with
  | nil => rw [assign, lookup_cons_eq_ite]
  | cons item items ih =>
    obtain ⟨m, old⟩ := item
    rw [assign]
    by_cases hm : m = name
    · by_cases hn : n = name <;> simp [lookup_cons_eq_ite, hm, hn]
    · by_cases hn : n = m <;> simp [lookup_cons_eq_ite, hm, hn, ih]

/-- Something bare that is put into a directory, in place of nothing or of what is no directory,
changes what stands at its own place only. -/
theorem face_at?_set {i new : Item} {above : List Text} {name : Text} (hnew : new.IsBare)
    (habove : (i.at? above).map face = some .directory)
    (hold : (i.at? (above ++ [name])).map face ≠ some .directory) (q : List Text) :
    ((set new (above ++ [name]) i).at? q).map face =
      if q = above ++ [name] then some new.face else (i.at? q).map face := by
  induction above generalizing i q with
  | nil =>
    cases i with
    | file f => cases habove
    | link target => cases habove
    | directory items =>
      cases q with
      | nil => rfl
      | cons n q =>
        rw [List.nil_append, set, at?, lookup_assign]
        by_cases hn : n = name
        · cases q with
          | nil => simp [hn, set, at?]
          | cons m q =>
            -- below the place there was nothing before, and there is nothing now
            have hnone : (directory items).at? (name :: m :: q) = none := by
              rw [at?]
              cases hl : items.lookup name with
              | none => rfl
              | some j =>
                cases j with
                | file f => rfl
                | link target => rfl
                | directory inner => simp [at?, hl, face] at hold
            rw [if_pos hn, hn, hnone, Option.bind_some, set, at?_of_isBare hnew, if_neg (by simp)]
        · rw [if_neg hn, if_neg (by simp [hn])]
          rfl
  | cons a above ih =>
    cases i with
    | file f => cases habove
    | link target => cases habove
    | directory items =>
      cases hl : items.lookup a with
      | none => simp [at?, hl] at habove
      | some j =>
        rw [List.cons_append, set, hl]
        cases q with
        | nil => rfl
        | cons n q =>
          rw [at?, lookup_assign]
          by_cases hn : n = a
          · have hinner := ih (i := j) (by simpa [at?, hl] using habove)
              (by simpa [at?, hl] using hold) q
            rw [if_pos hn, Option.bind_some, hinner, at?, hn, hl, Option.bind_some]
            simp
          · rw [if_neg hn, if_neg (by simp [hn])]
            rfl

end Item

namespace FileSystem

variable {fs fs' made : FileSystem} {p : Path} {place above q : List Text} {name : Text}
  {demand : Demand}

def face? (fs : FileSystem) (place : List Text) : Option Face := (fs.at? place).map Item.face

/-- The bytes of the file at a place. -/
def bytesAt? (fs : FileSystem) (place : List Text) : Option Bytes :=
  match fs.face? place with
  | some (.file f) => some f.bytes
  | _ => none

theorem face?_of_bytesAt? (h : fs.bytesAt? q ≠ none) : ∃ f, fs.face? q = some (.file f) := by
  rw [bytesAt?] at h
  split at h
  · exact ⟨_, ‹_›⟩
  · exact absurd rfl h

theorem hasDirectory_iff : fs.hasDirectory place = true ↔ fs.face? place = some .directory := by
  rw [hasDirectory, face?]
  cases fs.at? place with
  | none => simp
  | some i => cases i <;> simp [Item.isDirectory, Item.face]

theorem face?_above (h : (fs.face? (above ++ [name])).isSome) : fs.face? above = some .directory := by
  rw [face?, at?, Item.at?_append] at h
  rw [face?, at?]
  cases ha : fs.top.at? above with
  | none => simp [ha] at h
  | some i => cases i <;> simp_all [Item.at?, Item.face]

theorem face?_of_isPrefix (hq : q <+: place) (h : fs.face? place = some .directory) :
    fs.face? q = some .directory := by
  obtain ⟨below, rfl⟩ := hq
  rw [face?, at?, Item.at?_append] at h
  rw [face?, at?]
  cases hi : fs.top.at? q with
  | none => simp [hi] at h
  | some i =>
    cases i with
    | directory items => rfl
    | file f => cases below <;> simp [hi, Item.at?, Item.face] at h
    | link target => cases below <;> simp [hi, Item.at?, Item.face] at h

theorem face?_set {new : Item} (hnew : new.IsBare) (habove : fs.face? above = some .directory)
    (hold : fs.face? (above ++ [name]) ≠ some .directory) :
    (fs.set (above ++ [name]) new).face? =
      Function.update fs.face? (above ++ [name]) (some new.face) := by
  funext q
  rw [Function.update_apply]
  exact Item.face_at?_set hnew habove hold q

/-- From some files to others only directories are new, where nothing stood. -/
def AddsDirectories (fs fs' : FileSystem) : Prop :=
  ∀ q, fs'.face? q = fs.face? q ∨ (fs.face? q = none ∧ fs'.face? q = some .directory)

theorem AddsDirectories.refl (fs : FileSystem) : fs.AddsDirectories fs := fun _ ↦ .inl rfl

theorem AddsDirectories.trans (h : fs.AddsDirectories made) (h' : made.AddsDirectories fs') :
    fs.AddsDirectories fs' := by
  intro q
  obtain hq | ⟨hq, hmade⟩ := h q
  · rw [← hq]
    exact h' q
  · obtain hq' | ⟨hnone, -⟩ := h' q
    · exact .inr ⟨hq, hq'.trans hmade⟩
    · rw [hmade] at hnone
      cases hnone

theorem AddsDirectories.bytesAt?_eq (h : fs.AddsDirectories fs') (q : List Text) :
    fs'.bytesAt? q = fs.bytesAt? q := by
  rw [bytesAt?, bytesAt?]
  obtain hq | ⟨hq, hq'⟩ := h q
  · rw [hq]
  · rw [hq, hq']

theorem addsDirectories_of_makeDirectory (h : fs.makeDirectory p = .ok made) :
    fs.AddsDirectories made := by
  rw [makeDirectory] at h
  split at h
  · cases h
  split at h
  · cases h
  · rename_i name _ _ place _
    split at h
    · cases h
    rename_i hdirectory
    rw [Bool.not_eq_true, Bool.not_eq_false', hasDirectory_iff] at hdirectory
    split at h
    · cases h
    · rename_i hnew
      have hnone : fs.face? (place ++ [name]) = none := by
        rw [face?, Option.map_eq_none_iff]
        simpa using (not_or.mp hnew).2
      have hset : (fs.set (place ++ [name]) (.directory [])).face? =
          Function.update fs.face? (place ++ [name]) (some .directory) :=
        face?_set rfl hdirectory (by simp [hnone])
      obtain rfl := Except.ok.inj h
      intro q
      rw [hset, Function.update_apply]
      split
      · rename_i hq
        rw [hq]
        exact .inr ⟨hnone, rfl⟩
      · exact .inl rfl

theorem addsDirectories_ensureDirectory (fs : FileSystem) (p : Path) :
    fs.AddsDirectories (fs.ensureDirectory p).1 := by
  rw [ensureDirectory]
  split
  · exact addsDirectories_of_makeDirectory ‹_›
  · split <;> exact .refl fs

theorem addsDirectories_ensureAll (fs : FileSystem) (root : Text) (names : List Text) :
    fs.AddsDirectories (fs.ensureAll root names).1 := by
  induction names with
  | nil => exact .refl fs
  | cons name above ih =>
    rw [ensureAll]
    split
    · split
      · rename_i made hmade
        rw [hmade] at ih
        exact ih.trans (addsDirectories_ensureDirectory made _)
      · exact ih
    · exact addsDirectories_ensureDirectory fs _

theorem addsDirectories_makeDirectories (fs : FileSystem) (p : Path) :
    fs.AddsDirectories (fs.makeDirectories p).1 :=
  addsDirectories_ensureAll fs p.root p.segments.reverse

end FileSystem

end MessageExtraction
