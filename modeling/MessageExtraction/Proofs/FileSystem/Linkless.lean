import Mathlib.Data.List.Induction
import MessageExtraction.Proofs.FileSystem.Resolution

/-!
Where paths lead when there are no links. Where nothing has to be there the way depends on the names
alone, a path of names leads to the place that it names, and all names lead to a directory, to a file,
past a file or into the void.
-/

namespace MessageExtraction.FileSystem

variable {fs fs' made : FileSystem} {p : Path} {q place names : List Text} {name root : Text}
  {demand : Demand}

def IsLinkless (fs : FileSystem) : Prop := ∀ q target, fs.face? q ≠ some (.link target)

theorem IsLinkless.of_extends (h : fs.IsLinkless) (hext : fs.Extends fs') : fs'.IsLinkless := by
  intro q target
  rw [ne_eq, hext.link_iff]
  exact h q target

section Linkless

/-- What one name does: it fails, meets a link, steps back or goes on. -/
theorem advance_cons_cases (fs : FileSystem) (demand : Demand) (place : List Text) (name : Text)
    (rest : List Text) :
    (∃ e, fs.advance demand place (name :: rest) = .error e) ∨
      (∃ target, fs.face? (place ++ [name]) = some (.link target) ∧
        fs.advance demand place (name :: rest) = .ok (.link place target rest)) ∨
      (name = Path.dotDot ∧
        fs.advance demand place (name :: rest) = fs.advance demand place.dropLast rest) ∨
      (name ≠ Path.dotDot ∧
        fs.advance demand place (name :: rest) = fs.advance demand (place ++ [name]) rest) := by
  rw [advance]
  split
  · split
    · exact .inl ⟨_, rfl⟩
    · exact .inr (.inr (.inl ⟨‹_›, rfl⟩))
  · simp only
    split
    · rename_i target ht
      exact .inr (.inl ⟨target, by rw [face?, ht]; rfl, rfl⟩)
    · exact .inr (.inr (.inr ⟨‹_›, rfl⟩))
    · split
      · exact .inr (.inr (.inr ⟨‹_›, rfl⟩))
      · split
        · exact .inl ⟨_, rfl⟩
        · split
          · rename_i hlast
            rw [hlast.2]
            exact .inr (.inr (.inr ⟨‹_›, rfl⟩))
          · exact .inl ⟨_, rfl⟩

theorem IsLinkless.advance_ne_link (h : fs.IsLinkless) (base : List Text) (target : Path)
    (rest : List Text) : fs.advance demand place names ≠ .ok (.link base target rest) := by
  induction names generalizing place with
  | nil =>
    rw [advance]
    simp
  | cons name names ih =>
    rcases advance_cons_cases fs demand place name names with
      ⟨e, ha⟩ | ⟨t, ht, -⟩ | ⟨-, ha⟩ | ⟨-, ha⟩
    · rw [ha]
      simp
    · exact absurd ht (h _ t)
    · rw [ha]
      exact ih
    · rw [ha]
      exact ih

theorem IsLinkless.resolve_eq_ok_iff (h : fs.IsLinkless) :
    fs.resolve demand p = .ok q ↔ fs.advance demand [] p.segments = .ok (.arrived q) := by
  rw [resolve, follow_eq_ok_iff]
  constructor
  · rintro (ha | ⟨base, target, rest, -, -, ha, -⟩)
    · exact ha
    · exact absurd ha (h.advance_ne_link base target rest)
  · exact .inl

theorem resolve_eq_error {e : Obstacle}
    (ha : fs.advance demand [] p.segments = .error e) : fs.resolve demand p = .error e := by
  unfold resolve follow
  rw [ha]

/-- Where nothing has to be there, the way depends on the names alone. -/
theorem IsLinkless.advance_nothing_eq (h : fs.IsLinkless) (h' : fs'.IsLinkless) :
    fs.advance .nothing place names = fs'.advance .nothing place names := by
  induction names generalizing place with
  | nil => rfl
  | cons name names ih =>
    by_cases hname : name = Path.dotDot
    · rw [advance, advance, if_pos hname, if_pos hname]
      exact ih
    · rw [advance_nothing hname (h _), advance_nothing hname (h' _), ih]

theorem IsLinkless.canonical_eq (h : fs.IsLinkless) (h' : fs'.IsLinkless) (p : Path) :
    fs.canonical p = fs'.canonical p := by
  have hresolve : fs.resolve .nothing p = fs'.resolve .nothing p := by
    unfold resolve follow
    rw [h.advance_nothing_eq h']
    cases ha : fs'.advance .nothing [] p.segments with
    | error e => rfl
    | ok stop =>
      cases stop with
      | arrived q => rfl
      | link base target rest => exact absurd ha (h'.advance_ne_link base target rest)
  rw [canonical, canonical, hresolve]

/-- A path of names leads to the place that it names, if something stands there. -/
theorem IsLinkless.advance_place (h : fs.IsLinkless) (hnames : Path.dotDot ∉ names)
    (hq : fs.face? (place ++ names) ≠ none) :
    fs.advance .whole place names = .ok (.arrived (place ++ names)) := by
  obtain ⟨face, hface⟩ := Option.ne_none_iff_exists'.mp hq
  exact FileSystem.advance_place hnames hface fun target hlink ↦ h _ target (hlink ▸ hface)

theorem IsLinkless.resolve_place (h : fs.IsLinkless) (hnames : Path.dotDot ∉ names)
    (hq : fs.face? names ≠ none) : fs.resolve .whole ⟨root, names⟩ = .ok names :=
  h.resolve_eq_ok_iff.mpr (h.advance_place hnames hq)

theorem IsLinkless.find?_place (h : fs.IsLinkless) (hnames : Path.dotDot ∉ names) :
    fs.find? ⟨root, names⟩ = fs.at? names := by
  rw [find?]
  cases hr : fs.resolve .whole ⟨root, names⟩ with
  | ok q =>
    have ha := advance_unlinked hnames (fun q target _ ↦ h q target) (h.resolve_eq_ok_iff.mp hr)
    cases ha
    rfl
  | error e =>
    by_contra hne
    have hface : fs.face? names ≠ none := by
      rw [face?, ne_eq, Option.map_eq_none_iff]
      exact Ne.symm hne
    rw [h.resolve_place hnames hface] at hr
    cases hr

/-- A path without links and steps back, whatever stands there. -/
theorem IsLinkless.advance_nothing_place (h : fs.IsLinkless) {place : List Text}
    (hplace : Path.dotDot ∉ place) (names : List Text) :
    ∃ q, fs.advance .nothing place names = .ok (.arrived q) ∧ Path.dotDot ∉ q ∧
      (Path.dotDot ∉ names → q = place ++ names) := by
  induction names generalizing place with
  | nil => exact ⟨place, rfl, hplace, fun _ ↦ (List.append_nil place).symm⟩
  | cons name names ih =>
    by_cases hname : name = Path.dotDot
    · have hback : Path.dotDot ∉ place.dropLast := fun h ↦ hplace (List.dropLast_subset _ h)
      obtain ⟨q, ha, hq, -⟩ := ih hback
      refine ⟨q, ?_, hq, fun hnames ↦ absurd (hname ▸ List.mem_cons_self) hnames⟩
      rw [advance, if_pos hname]
      exact ha
    · have hnext : Path.dotDot ∉ place ++ [name] := by simp [hplace, Ne.symm hname]
      obtain ⟨q, ha, hq, heq⟩ := ih hnext
      refine ⟨q, by rw [advance_nothing hname (h _), ha], hq, fun hnames ↦ ?_⟩
      rw [heq (mt (List.mem_cons_of_mem _) hnames), ← List.append_cons]

theorem IsLinkless.exists_canonical_eq (h : fs.IsLinkless) (p : Path) :
    ∃ place, fs.canonical p = ⟨[CodePoint.slash], place⟩ ∧ Path.dotDot ∉ place := by
  obtain ⟨q, ha, hq, -⟩ := h.advance_nothing_place List.not_mem_nil p.segments
  exact ⟨q, by rw [canonical, h.resolve_eq_ok_iff.mpr ha], hq⟩

theorem IsLinkless.canonical_place (h : fs.IsLinkless) (hplace : Path.dotDot ∉ place) :
    fs.canonical ⟨[CodePoint.slash], place⟩ = ⟨[CodePoint.slash], place⟩ := by
  obtain ⟨q, ha, -, heq⟩ := h.advance_nothing_place List.not_mem_nil place
  rw [canonical, h.resolve_eq_ok_iff.mpr ha, heq hplace, List.nil_append]

end Linkless

section Ends

/-- Names lead to a directory. -/
def LeadsToDirectory (fs : FileSystem) (names : List Text) : Prop :=
  ∃ q, fs.advance .whole [] names = .ok (.arrived q) ∧ fs.face? q = some .directory

/-- Names lead to a file. -/
def LeadsToFile (fs : FileSystem) (names : List Text) : Prop :=
  ∃ q f, fs.advance .whole [] names = .ok (.arrived q) ∧ fs.face? q = some (.file f)

/-- Names lead on from a file. -/
def LeadsPastFile (fs : FileSystem) (names : List Text) : Prop :=
  ∃ front back, names = front ++ back ∧ back ≠ [] ∧ fs.LeadsToFile front

theorem LeadsToDirectory.of_extends (h : fs.LeadsToDirectory names) (hext : fs.Extends fs') :
    fs'.LeadsToDirectory names := by
  obtain ⟨q, ha, hq⟩ := h
  have hq' := hext.directory q hq
  refine ⟨q, advance_extends hext (by decide) ?_ ha, hq'⟩
  rintro - _ ⟨⟩
  simp [hq']

theorem LeadsToFile.of_extends (h : fs.LeadsToFile names) (hext : fs.Extends fs') :
    fs'.LeadsToFile names := by
  obtain ⟨q, f, ha, hq⟩ := h
  obtain ⟨f', hq'⟩ := hext.file q f hq
  refine ⟨q, f', advance_extends hext (by decide) ?_ ha, hq'⟩
  rintro - _ ⟨⟩
  simp [hq']

theorem LeadsPastFile.of_extends (h : fs.LeadsPastFile names) (hext : fs.Extends fs') :
    fs'.LeadsPastFile names := by
  obtain ⟨front, back, hnames, hback, hfile⟩ := h
  exact ⟨front, back, hnames, hback, hfile.of_extends hext⟩

theorem leadsPastFile_concat_iff :
    fs.LeadsPastFile (names ++ [name]) ↔ fs.LeadsToFile names ∨ fs.LeadsPastFile names := by
  constructor
  · rintro ⟨front, back, hnames, hback, hfile⟩
    obtain ⟨back, last, rfl⟩ := (List.eq_nil_or_concat back).resolve_left hback
    rw [List.concat_eq_append, ← List.append_assoc] at hnames
    obtain ⟨rfl, -⟩ := List.append_inj' hnames rfl
    by_cases hrest : back = []
    · rw [hrest, List.append_nil]
      exact .inl hfile
    · exact .inr ⟨front, back, rfl, hrest, hfile⟩
  · rintro (hfile | ⟨front, back, rfl, -, hfile⟩)
    · exact ⟨names, [name], rfl, by simp, hfile⟩
    · exact ⟨front, back ++ [name], by rw [List.append_assoc], by simp, hfile⟩

theorem advance_past_file (hplace : fs.face? place ≠ some .directory) (hnames : names ≠ []) :
    fs.advance .whole place names = .error .notDirectory := by
  obtain ⟨name, rest, rfl⟩ := List.exists_cons_of_ne_nil hnames
  by_cases hname : name = Path.dotDot
  · rw [hname, advance_dotDot_of_not_directory (by decide) hplace]
  · have hnone : fs.at? (place ++ [name]) = none := by
      rw [← Option.map_eq_none_iff, ← face?, ← Option.not_isSome_iff_eq_none]
      exact mt face?_above hplace
    rw [advance, if_neg hname]
    simp [hnone, hasDirectory_eq_false_iff.mpr hplace]

theorem LeadsPastFile.advance_eq (h : fs.LeadsPastFile names) :
    fs.advance .whole [] names = .error .notDirectory := by
  obtain ⟨front, back, rfl, hback, q, f, ha, hq⟩ := h
  rw [advance_append, ha]
  exact advance_past_file (by simp [hq]) hback

/-- How names lead on by one more from a directory. -/
theorem advance_concat (ha : fs.advance .whole [] names = .ok (.arrived q)) (name : Text) :
    fs.advance .whole [] (names ++ [name]) = fs.advance .whole q [name] := by
  rw [advance_append, ha]

theorem leadsToDirectory_dotDot (h : fs.LeadsToDirectory names) :
    fs.LeadsToDirectory (names ++ [Path.dotDot]) := by
  obtain ⟨q, ha, hq⟩ := h
  refine ⟨q.dropLast, ?_, face?_of_isPrefix (List.dropLast_prefix q) hq⟩
  rw [advance_concat ha, advance_dotDot hq, advance]

theorem advance_concat_some (ha : fs.advance .whole [] names = .ok (.arrived q))
    (hname : name ≠ Path.dotDot) {face : Face} (hnext : fs.face? (q ++ [name]) = some face)
    (hlink : ∀ target, face ≠ .link target) :
    fs.advance .whole [] (names ++ [name]) = .ok (.arrived (q ++ [name])) := by
  rw [advance_concat ha, advance_step hname hnext hlink, advance]

theorem advance_concat_none (ha : fs.advance .whole [] names = .ok (.arrived q))
    (hq : fs.face? q = some .directory) (hname : name ≠ Path.dotDot)
    (hnext : fs.face? (q ++ [name]) = none) :
    fs.advance .whole [] (names ++ [name]) = .error .missing := by
  rw [advance_concat ha, advance, if_neg hname]
  simp [Option.map_eq_none_iff.mp hnext, hasDirectory_iff.mpr hq]

/-- From a directory at the top all names lead somewhere, past a file, or into the void. -/
theorem IsLinkless.leads_cases (h : fs.IsLinkless) (htop : fs.face? [] = some .directory)
    (names : List Text) :
    fs.LeadsToDirectory names ∨ fs.LeadsToFile names ∨ fs.LeadsPastFile names ∨
      fs.advance .whole [] names = .error .missing := by
  induction names using List.reverseRecOn with
  | nil => exact .inl ⟨[], rfl, htop⟩
  | append_singleton names name ih =>
    obtain hd | hf | hpast | hmissing := ih
    · by_cases hname : name = Path.dotDot
      · rw [hname]
        exact .inl (leadsToDirectory_dotDot hd)
      · obtain ⟨q, ha, hq⟩ := hd
        cases hnext : fs.face? (q ++ [name]) with
        | none => exact .inr (.inr (.inr (advance_concat_none ha hq hname hnext)))
        | some face =>
          have hlink : ∀ target, face ≠ .link target := fun target hface ↦ h _ target (hface ▸ hnext)
          have ha' := advance_concat_some ha hname hnext hlink
          cases face with
          | directory => exact .inl ⟨_, ha', hnext⟩
          | file f => exact .inr (.inl ⟨_, f, ha', hnext⟩)
          | link target => exact absurd rfl (hlink target)
    · exact .inr (.inr (.inl (leadsPastFile_concat_iff.mpr (.inl hf))))
    · exact .inr (.inr (.inl (leadsPastFile_concat_iff.mpr (.inr hpast))))
    · refine .inr (.inr (.inr ?_))
      rw [advance_append, hmissing]

/-- A path leads to a place under its last name. -/
theorem last_of_advance (hname : name ≠ Path.dotDot)
    (h : fs.advance demand place (names ++ [name]) = .ok (.arrived q)) : ∃ above, q = above ++ [name] := by
  induction names generalizing place with
  | nil =>
    rw [List.nil_append] at h
    rcases advance_cons_cases fs demand place name [] with
      ⟨e, ha⟩ | ⟨t, -, ha⟩ | ⟨hdots, -⟩ | ⟨-, ha⟩
    · rw [ha] at h
      cases h
    · rw [ha] at h
      cases h
    · exact absurd hdots hname
    · rw [ha, advance] at h
      cases h
      exact ⟨place, rfl⟩
  | cons next names ih =>
    rw [List.cons_append] at h
    rcases advance_cons_cases fs demand place next (names ++ [name]) with
      ⟨e, ha⟩ | ⟨t, -, ha⟩ | ⟨-, ha⟩ | ⟨-, ha⟩
    · rw [ha] at h
      cases h
    · rw [ha] at h
      cases h
    · rw [ha] at h
      exact ih h
    · rw [ha] at h
      exact ih h

end Ends

end MessageExtraction.FileSystem
