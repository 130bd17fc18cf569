import MessageExtraction.Proofs.FileSystem.Resolution

/-!
What the making of directories and the writing of files can come to, one place after another. No link is
made, what stands somewhere keeps its kind, and a file that is written is no source.
-/

namespace MessageExtraction.FileSystem

variable {fs mid fs' made : FileSystem} {p : Path} {q above : List Text} {name : Text}

/-- Files come of others by directories that are made where nothing stood, and by files without a tree that
are written. -/
inductive Evolves (fs : FileSystem) : FileSystem → Prop
  | refl : Evolves fs fs
  | made {mid : FileSystem} {above : List Text} {name : Text} : Evolves fs mid →
      name ≠ Path.dotDot → mid.face? above = some .directory → mid.face? (above ++ [name]) = none →
      Evolves fs (mid.set (above ++ [name]) (.directory []))
  | written {mid : FileSystem} {q : List Text} {f : File} : Evolves fs mid → mid.TakesFile q →
      f.tree = none → Evolves fs (mid.set q (.file f))

theorem Evolves.trans (h : fs.Evolves mid) (h' : mid.Evolves fs') : fs.Evolves fs' := by
  induction h' with
  | refl => exact h
  | made _ hname habove hnone ih => exact .made ih hname habove hnone
  | written _ htakes htree ih => exact .written ih htakes htree

theorem face?_made (habove : mid.face? above = some .directory) (hnone : mid.face? (above ++ [name]) = none) :
    (mid.set (above ++ [name]) (.directory [])).face? =
      Function.update mid.face? (above ++ [name]) (some .directory) :=
  face?_set (show (Item.directory []).IsBare from rfl) habove (by simp [hnone])

/-- What stands somewhere now stood there before, or is a directory or a file without a tree. -/
theorem Evolves.face?_cases (h : fs.Evolves fs') {face : Face} (hface : fs'.face? q = some face) :
    fs.face? q = some face ∨ face = .directory ∨ ∃ f, face = .file f ∧ f.tree = none := by
  induction h with
  | refl => exact .inl hface
  | made _ _ habove hnone ih =>
    rw [face?_made habove hnone, Function.update_apply] at hface
    split at hface
    · exact .inr (.inl (Option.some.inj hface).symm)
    · exact ih hface
  | written _ htakes htree ih =>
    rw [htakes.face?_set, Function.update_apply] at hface
    split at hface
    · exact .inr (.inr ⟨_, (Option.some.inj hface).symm, htree⟩)
    · exact ih hface

/-- Nothing stands under a step back. -/
def IsStepless (fs : FileSystem) : Prop := ∀ q, fs.face? q ≠ none → Path.dotDot ∉ q

theorem IsStepless.dotDot_notMem (h : fs.IsStepless) {face : Face} (hq : fs.face? q = some face) :
    Path.dotDot ∉ q :=
  h q (by simp [hq])

theorem IsStepless.concat (h : mid.IsStepless) (habove : mid.face? above = some .directory)
    (hname : name ≠ Path.dotDot) : Path.dotDot ∉ above ++ [name] := by
  simp [h.dotDot_notMem habove, Ne.symm hname]

theorem Evolves.isStepless (h : fs.Evolves fs') (hfs : fs.IsStepless) : fs'.IsStepless := by
  induction h with
  | refl => exact hfs
  | made _ hname habove hnone ih =>
    intro q hq
    rw [face?_made habove hnone, Function.update_apply] at hq
    split at hq
    · rename_i hplace
      rw [hplace]
      exact ih.concat habove hname
    · exact ih q hq
  | written _ htakes _ ih =>
    intro q hq
    rw [htakes.face?_set, Function.update_apply] at hq
    split at hq
    · rename_i hplace
      obtain ⟨above, name, rfl, hname, habove, -⟩ := htakes
      rw [hplace]
      exact ih.concat habove hname
    · exact ih q hq

section Making

theorem evolves_of_makeDirectory (h : fs.makeDirectory p = .ok made) : fs.Evolves made := by
  rw [makeDirectory] at h
  split at h
  · cases h
  split at h
  · cases h
  · rename_i name _ _ place _
    split at h
    · cases h
    rename_i hdirectory
    rw [Bool.not_eq_true, Bool.not_eq_false', hasDirectory_iff] at hdirectory
    split at h
    · cases h
    · rename_i hnew
      obtain ⟨hname, hnone⟩ := not_or.mp hnew
      rw [← Except.ok.inj h]
      refine .made .refl hname hdirectory ?_
      rw [face?, Option.map_eq_none_iff]
      simpa using hnone

theorem evolves_ensureDirectory (fs : FileSystem) (p : Path) : fs.Evolves (fs.ensureDirectory p).1 := by
  rw [ensureDirectory]
  split
  · exact evolves_of_makeDirectory ‹_›
  · split <;> exact .refl

theorem evolves_ensureAll (fs : FileSystem) (root : Text) (names : List Text) :
    fs.Evolves (fs.ensureAll root names).1 := by
  induction names with
  | nil => exact .refl
  | cons name above ih =>
    rw [ensureAll]
    split
    · split
      · rename_i made hmade
        rw [hmade] at ih
        exact ih.trans (evolves_ensureDirectory made _)
      · exact ih
    · exact evolves_ensureDirectory fs _

theorem evolves_makeDirectories (fs : FileSystem) (p : Path) : fs.Evolves (fs.makeDirectories p).1 :=
  evolves_ensureAll fs p.root p.segments.reverse

theorem evolves_writeText (fs : FileSystem) (hp : p.segments ≠ []) (t : Text) (data : Option Json) :
    fs.Evolves (fs.writeText p t data).1 := by
  rw [writeText]
  cases hw : fs.writable p with
  | error e => exact .refl
  | ok place =>
    have htakes := takesFile_of_writable hp hw
    cases Utf8.encode? t <;> exact .written .refl htakes rfl

end Making

end MessageExtraction.FileSystem
