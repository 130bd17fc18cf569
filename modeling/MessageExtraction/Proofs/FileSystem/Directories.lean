import MessageExtraction.Proofs.FileSystem.Linkless

/-!
Making directories where there are no links. Whether names lead to a directory, to a file, past a file or
into the void decides how the making of directories ends. What it has made or found in its way it finds
again later, and then makes nothing. Only its report can differ: of a file that was met behind directories
that had still to be made, another path is said to be at fault.
-/

namespace MessageExtraction

theorem Path.parent_concat (root : Text) (names : List Text) (name : Text) :
    parent ⟨root, names ++ [name]⟩ = ⟨root, names⟩ := by
  simp [parent]

namespace FileSystem

variable {fs fs' made : FileSystem} {p : Path} {q place names : List Text} {name root : Text}

section Making

theorem IsLinkless.isDirectory_iff (h : fs.IsLinkless) :
    fs.isDirectory p = true ↔ fs.LeadsToDirectory p.segments := by
  rw [isDirectory, find?]
  cases hr : fs.resolve .whole p with
  | error e =>
    refine iff_of_false (by simp) ?_
    rintro ⟨q, ha, -⟩
    rw [h.resolve_eq_ok_iff.mpr ha] at hr
    cases hr
  | ok q =>
    have ha := h.resolve_eq_ok_iff.mp hr
    simp only
    rw [← hasDirectory, hasDirectory_iff]
    constructor
    · intro hq
      exact ⟨q, ha, hq⟩
    · rintro ⟨q', ha', hq⟩
      rw [ha] at ha'
      cases ha'
      exact hq

theorem makeDirectory_of_error {e : Obstacle} (h : fs.resolve .whole ⟨root, names⟩ = .error e)
    (name : Text) : fs.makeDirectory ⟨root, names ++ [name]⟩ = .error e := by
  rw [makeDirectory, Path.parent_concat]
  simp only [List.getLast?_concat, h]

theorem makeDirectory_of_ok (h : fs.resolve .whole ⟨root, names⟩ = .ok place) (name : Text) :
    fs.makeDirectory ⟨root, names ++ [name]⟩ =
      if !fs.hasDirectory place then .error .notDirectory
      else if name = Path.dotDot ∨ (fs.at? (place ++ [name])).isSome then .error .present
      else .ok (fs.set (place ++ [name]) (.directory [])) := by
  rw [makeDirectory, Path.parent_concat]
  simp only [List.getLast?_concat, h]

/-- A directory can be made where nothing stands, in a directory. -/
theorem makeDirectory_of_missing (h : fs.IsLinkless) (hd : fs.LeadsToDirectory names)
    (hmissing : fs.advance .whole [] (names ++ [name]) = .error .missing) (root : Text) :
    ∃ made, fs.makeDirectory ⟨root, names ++ [name]⟩ = .ok made ∧
      made.LeadsToDirectory (names ++ [name]) := by
  obtain ⟨q, ha, hq⟩ := hd
  have hname : name ≠ Path.dotDot := by
    rintro rfl
    obtain ⟨q', ha', -⟩ := leadsToDirectory_dotDot ⟨q, ha, hq⟩
    rw [hmissing] at ha'
    cases ha'
  have hnone : fs.face? (q ++ [name]) = none := by
    cases hnext : fs.face? (q ++ [name]) with
    | none => rfl
    | some face =>
      rw [advance_concat_some ha hname hnext fun target hface ↦ h _ target (hface ▸ hnext)] at hmissing
      cases hmissing
  have hmade : fs.makeDirectory ⟨root, names ++ [name]⟩ =
      .ok (fs.set (q ++ [name]) (.directory [])) := by
    rw [makeDirectory_of_ok (h.resolve_eq_ok_iff.mpr ha)]
    simp [hasDirectory_iff.mpr hq, hname, Option.map_eq_none_iff.mp hnone]
  have hnext : (fs.set (q ++ [name]) (.directory [])).face? (q ++ [name]) = some .directory := by
    have hbare : (Item.directory []).IsBare := rfl
    rw [face?_set hbare hq (by simp [hnone]), Function.update_self]
    rfl
  have hext := (addsDirectories_of_makeDirectory hmade).extends
  refine ⟨_, hmade, q ++ [name], ?_, hnext⟩
  refine advance_concat_some (advance_extends hext (by decide) ?_ ha) hname hnext nofun
  rintro - _ ⟨⟩
  simp [hext.directory q hq]

/-- Nothing is made where something stands. -/
theorem makeDirectory_of_arrived (h : fs.IsLinkless)
    (ha : fs.advance .whole [] (names ++ [name]) = .ok (.arrived q)) :
    fs.makeDirectory ⟨root, names ++ [name]⟩ = .error .present := by
  rw [advance_append] at ha
  split at ha
  · cases ha
  · rename_i place hplace
    have hd : fs.face? place = some .directory := by
      by_contra hd
      rw [advance_past_file hd (by simp)] at ha
      cases ha
    have hthere : name = Path.dotDot ∨ (fs.at? (place ++ [name])).isSome := by
      rw [or_iff_not_imp_left]
      intro hname
      by_contra hnone
      rw [Option.not_isSome_iff_eq_none, ← Option.map_eq_none_iff, ← face?] at hnone
      cases ((advance_missing hname (by decide) hnone).mp ha).2.1
    rw [makeDirectory_of_ok (h.resolve_eq_ok_iff.mpr hplace)]
    simp [hasDirectory_iff.mpr hd, hthere]
  · cases ha

theorem makeDirectory_past_file (h : fs.IsLinkless) (hpast : fs.LeadsPastFile (names ++ [name])) :
    fs.makeDirectory ⟨root, names ++ [name]⟩ = .error .notDirectory := by
  obtain ⟨q, f, ha, hq⟩ | hpast := leadsPastFile_concat_iff.mp hpast
  · have hno : fs.hasDirectory q = false := hasDirectory_eq_false_iff.mpr (by simp [hq])
    rw [makeDirectory_of_ok (h.resolve_eq_ok_iff.mpr ha)]
    simp [hno]
  · exact makeDirectory_of_error (resolve_eq_error hpast.advance_eq) name

theorem ensureDirectory_of_leadsToDirectory (h : fs.IsLinkless)
    (hd : fs.LeadsToDirectory (names ++ [name])) :
    fs.ensureDirectory ⟨root, names ++ [name]⟩ = (fs, .ok ()) := by
  have hthere := h.isDirectory_iff (p := ⟨root, names ++ [name]⟩).mpr hd
  obtain ⟨q, ha, -⟩ := hd
  rw [ensureDirectory, makeDirectory_of_arrived h ha]
  simp [hthere]

theorem ensureDirectory_of_leadsToFile (h : fs.IsLinkless) (hf : fs.LeadsToFile (names ++ [name])) :
    fs.ensureDirectory ⟨root, names ++ [name]⟩ = (fs, .error ⟨.present, ⟨root, names ++ [name]⟩⟩) := by
  obtain ⟨q, f, ha, hq⟩ := hf
  have hno : fs.isDirectory ⟨root, names ++ [name]⟩ = false := by
    rw [← Bool.not_eq_true, h.isDirectory_iff]
    rintro ⟨q', ha', hq'⟩
    rw [ha] at ha'
    cases ha'
    rw [hq] at hq'
    cases hq'
  rw [ensureDirectory, makeDirectory_of_arrived h ha]
  simp [hno]

theorem ensureDirectory_past_file (h : fs.IsLinkless) (hpast : fs.LeadsPastFile (names ++ [name])) :
    fs.ensureDirectory ⟨root, names ++ [name]⟩ =
      (fs, .error ⟨.notDirectory, ⟨root, names ++ [name]⟩⟩) := by
  have hno : fs.isDirectory ⟨root, names ++ [name]⟩ = false := by
    rw [← Bool.not_eq_true, h.isDirectory_iff]
    rintro ⟨q, ha, -⟩
    rw [hpast.advance_eq] at ha
    cases ha
  rw [ensureDirectory, makeDirectory_past_file h hpast]
  simp [hno]

theorem ensureDirectory_of_missing (h : fs.IsLinkless) (hd : fs.LeadsToDirectory names)
    (hmissing : fs.advance .whole [] (names ++ [name]) = .error .missing) (root : Text) :
    ∃ made, fs.ensureDirectory ⟨root, names ++ [name]⟩ = (made, .ok ()) ∧
      made.LeadsToDirectory (names ++ [name]) := by
  obtain ⟨made, hmade, hd'⟩ := makeDirectory_of_missing h hd hmissing root
  exact ⟨made, by rw [ensureDirectory, hmade], hd'⟩

/-- Unless directories around it are missing, a directory is made or found by itself. -/
theorem ensureAll_of_ne (h : fs.makeDirectory ⟨root, names ++ [name]⟩ ≠ .error .missing) :
    fs.ensureAll root (names ++ [name]).reverse = fs.ensureDirectory ⟨root, names ++ [name]⟩ := by
  rw [List.reverse_concat, ensureAll, List.reverse_cons, List.reverse_reverse]
  split
  · exact absurd ‹_› h
  · rfl

theorem ensureAll_of_missing (h : fs.makeDirectory ⟨root, names ++ [name]⟩ = .error .missing)
    {result : Except FileError Unit} (hall : fs.ensureAll root names.reverse = (made, result)) :
    fs.ensureAll root (names ++ [name]).reverse =
      if result.isOk then made.ensureDirectory ⟨root, names ++ [name]⟩ else (made, result) := by
  rw [List.reverse_concat, ensureAll, List.reverse_cons, List.reverse_reverse]
  rcases result with e | ⟨⟩ <;> simp only [h, hall] <;> rfl

/-- How the making of a directory and of those around it ends. -/
inductive Makes (fs : FileSystem) (root : Text) (names : List Text) :
    FileSystem → Except FileError Unit → Prop
  | made {made : FileSystem} : made.LeadsToDirectory names → Makes fs root names made (.ok ())
  | taken {made : FileSystem} : made.LeadsToFile names →
      Makes fs root names made (.error ⟨.present, ⟨root, names⟩⟩)
  | barred : fs.LeadsPastFile names → Makes fs root names fs (.error ⟨.notDirectory, ⟨root, names⟩⟩)
  /-- Behind directories that were missing and are made, a step back has led to a file. -/
  | stumbled {made : FileSystem} {front back : List Text} : names = front ++ back → back ≠ [] →
      made.LeadsToFile front → Makes fs root names made (.error ⟨.present, ⟨root, front⟩⟩)

theorem LeadsToDirectory.not_past_file (h : fs.LeadsToDirectory names) (name : Text) :
    ¬fs.LeadsPastFile (names ++ [name]) := by
  obtain ⟨q, ha, hq⟩ := h
  intro hpast
  rcases leadsPastFile_concat_iff.mp hpast with ⟨q', f, ha', hq'⟩ | hpast
  · rw [ha] at ha'
    cases ha'
    rw [hq] at hq'
    cases hq'
  · rw [hpast.advance_eq] at ha
    cases ha

theorem makes_ensureDirectory (h : fs.IsLinkless) (htop : fs.face? [] = some .directory)
    (hd : fs.LeadsToDirectory names) (start : FileSystem) :
    Makes start root (names ++ [name]) (fs.ensureDirectory ⟨root, names ++ [name]⟩).1
      (fs.ensureDirectory ⟨root, names ++ [name]⟩).2 := by
  obtain hthere | hf | hpast | hmissing := h.leads_cases htop (names ++ [name])
  · rw [ensureDirectory_of_leadsToDirectory h hthere]
    exact .made hthere
  · rw [ensureDirectory_of_leadsToFile h hf]
    exact .taken hf
  · exact absurd hpast (hd.not_past_file name)
  · obtain ⟨made, hmade, hd'⟩ := ensureDirectory_of_missing h hd hmissing root
    rw [hmade]
    exact .made hd'

theorem makes_ensureAll (h : fs.IsLinkless) (htop : fs.face? [] = some .directory) (root : Text)
    (names : List Text) :
    Makes fs root names (fs.ensureAll root names.reverse).1 (fs.ensureAll root names.reverse).2 := by
  induction names using List.reverseRecOn with
  | nil => exact .made ⟨[], rfl, htop⟩
  | append_singleton names name ih =>
    by_cases hpast : fs.LeadsPastFile (names ++ [name])
    · rw [ensureAll_of_ne (by simp [makeDirectory_past_file h hpast]),
        ensureDirectory_past_file h hpast]
      exact .barred hpast
    · obtain hd | hf | hpast' | hmissing := h.leads_cases htop names
      · have hne : fs.makeDirectory ⟨root, names ++ [name]⟩ ≠ .error .missing := by
          obtain ⟨q, ha, hq⟩ := hd
          rw [makeDirectory_of_ok (h.resolve_eq_ok_iff.mpr ha)]
          simp only [hasDirectory_iff.mpr hq, Bool.not_true, Bool.false_eq_true, if_false]
          split <;> simp
        rw [ensureAll_of_ne hne]
        exact makes_ensureDirectory h htop hd fs
      · exact absurd (leadsPastFile_concat_iff.mpr (.inl hf)) hpast
      · exact absurd (leadsPastFile_concat_iff.mpr (.inr hpast')) hpast
      · have hext := (addsDirectories_ensureAll fs root names.reverse).extends
        rcases hall : fs.ensureAll root names.reverse with ⟨made, result⟩
        rw [hall] at ih hext
        rw [ensureAll_of_missing (makeDirectory_of_error (resolve_eq_error hmissing) name) hall]
        cases ih with
        | made hd =>
          exact makes_ensureDirectory (h.of_extends hext) (hext.directory [] htop) hd fs
        | taken hf => exact .stumbled rfl (by simp) hf
        | barred hpast' => exact absurd (leadsPastFile_concat_iff.mpr (.inr hpast')) hpast
        | stumbled hnames hback hf =>
          exact .stumbled (by rw [hnames, List.append_assoc]) (by simp) hf

theorem makes_makeDirectories (h : fs.IsLinkless) (htop : fs.face? [] = some .directory)
    {result : Except FileError Unit} (hmade : fs.makeDirectories p = (made, result)) :
    Makes fs p.root p.segments made result := by
  have := makes_ensureAll h htop p.root p.segments
  rwa [← makeDirectories, hmade] at this

theorem makeDirectories_of_leadsToDirectory (h : fs.IsLinkless) (hd : fs.LeadsToDirectory p.segments) :
    fs.makeDirectories p = (fs, .ok ()) := by
  obtain ⟨root, names⟩ := p
  rw [makeDirectories]
  rcases List.eq_nil_or_concat names with rfl | ⟨names, name, rfl⟩
  · rfl
  · rw [List.concat_eq_append] at hd ⊢
    have hne : fs.makeDirectory ⟨root, names ++ [name]⟩ ≠ .error .missing := by
      obtain ⟨q, ha, -⟩ := hd
      simp [makeDirectory_of_arrived h ha]
    rw [ensureAll_of_ne hne, ensureDirectory_of_leadsToDirectory h hd]

theorem makeDirectories_of_leadsToFile (h : fs.IsLinkless) (htop : fs.face? [] = some .directory)
    (hf : fs.LeadsToFile p.segments) : fs.makeDirectories p = (fs, .error ⟨.present, p⟩) := by
  obtain ⟨root, names⟩ := p
  rw [makeDirectories]
  rcases List.eq_nil_or_concat names with rfl | ⟨names, name, rfl⟩
  · obtain ⟨q, f, ha, hq⟩ := hf
    cases ha
    rw [htop] at hq
    cases hq
  · rw [List.concat_eq_append] at hf ⊢
    have hne : fs.makeDirectory ⟨root, names ++ [name]⟩ ≠ .error .missing := by
      obtain ⟨q, f, ha, -⟩ := hf
      simp [makeDirectory_of_arrived h ha]
    rw [ensureAll_of_ne hne, ensureDirectory_of_leadsToFile h hf]

theorem makeDirectories_past_file (h : fs.IsLinkless) (hpast : fs.LeadsPastFile p.segments) :
    fs.makeDirectories p = (fs, .error ⟨.notDirectory, p⟩) := by
  obtain ⟨root, names⟩ := p
  rw [makeDirectories]
  rcases List.eq_nil_or_concat names with rfl | ⟨names, name, rfl⟩
  · obtain ⟨front, back, hnames, hback, -⟩ := hpast
    exact absurd (List.append_eq_nil_iff.mp hnames.symm).2 hback
  · rw [List.concat_eq_append] at hpast ⊢
    rw [ensureAll_of_ne (by simp [makeDirectory_past_file h hpast]),
      ensureDirectory_past_file h hpast]

/-- The making of a directory ends at another path than the one that was asked for. -/
def Stumbles (fs : FileSystem) (p : Path) : Prop :=
  ∃ made e, fs.makeDirectories p = (made, .error e) ∧ e.path ≠ p

theorem not_stumbles {result : Except FileError Unit} (hmade : fs.makeDirectories p = (made, result))
    (h : ∀ e, result = .error e → e.path = p) : ¬fs.Stumbles p := by
  rintro ⟨made', e, hmade', hne⟩
  obtain ⟨-, rfl⟩ := Prod.mk.inj (hmade.symm.trans hmade')
  exact hne (h e rfl)

/-- Directories that were made, or whose making has failed, are not made again: the second time nothing
changes, and it ends as before unless the first has stumbled. -/
theorem makeDirectories_again (h : fs.IsLinkless) (htop : fs.face? [] = some .directory)
    {result : Except FileError Unit} (hmade : fs.makeDirectories p = (made, result))
    (hext : made.Extends fs') :
    (fs'.makeDirectories p = (fs', result) ∧ ¬fs.Stumbles p) ∨
      fs.Stumbles p ∧ ∃ q, result = .error ⟨.present, q⟩ ∧
        fs'.makeDirectories p = (fs', .error ⟨.notDirectory, p⟩) := by
  have hadds := (fs.addsDirectories_makeDirectories p).extends
  rw [hmade] at hadds
  have h' : fs'.IsLinkless := h.of_extends (hadds.trans hext)
  have htop' := (hadds.trans hext).directory [] htop
  cases makes_makeDirectories h htop hmade with
  | made hd =>
    exact .inl ⟨makeDirectories_of_leadsToDirectory h' (hd.of_extends hext), not_stumbles hmade nofun⟩
  | taken hf =>
    refine .inl ⟨makeDirectories_of_leadsToFile h' htop' (hf.of_extends hext), not_stumbles hmade ?_⟩
    rintro _ ⟨⟩
    rfl
  | barred hpast =>
    refine .inl ⟨makeDirectories_past_file h' (hpast.of_extends hext), not_stumbles hmade ?_⟩
    rintro _ ⟨⟩
    rfl
  | @stumbled _ front back hnames hback hf =>
    refine .inr ⟨⟨made, _, hmade, fun hp ↦ ?_⟩, ⟨p.root, front⟩, rfl, ?_⟩
    · rw [← congrArg Path.segments hp] at hnames
      exact hback (List.append_right_eq_self.mp hnames.symm)
    · exact makeDirectories_past_file h' ⟨front, back, hnames, hback, hf.of_extends hext⟩

/-- The making of directories stumbles exactly if a step back on the way leads into the void at first and,
once the directories before it are made, to a file that was there all along. -/
theorem stumbles_iff (h : fs.IsLinkless) (htop : fs.face? [] = some .directory) :
    fs.Stumbles p ↔ ∃ made front back place f, p.segments = front ++ back ∧ back ≠ [] ∧
      Path.dotDot ∈ front ∧ fs.advance .whole [] front = .error .missing ∧
      fs.makeDirectories p = (made, .error ⟨.present, ⟨p.root, front⟩⟩) ∧
      made.advance .whole [] front = .ok (.arrived place) ∧ fs.face? place = some (.file f) := by
  constructor
  · rintro ⟨made, e, hmade, hne⟩
    have hadds := fs.addsDirectories_makeDirectories p
    rw [hmade] at hadds
    have hnot : ¬fs.LeadsPastFile p.segments := by
      intro hpast
      rw [makeDirectories_past_file h hpast] at hmade
      cases hmade
      exact hne rfl
    cases makes_makeDirectories h htop hmade with
    | taken _ => exact absurd rfl hne
    | barred hpast => exact absurd hpast hnot
    | @stumbled _ front back hnames hback hf =>
      obtain ⟨place, f, ha, hq⟩ := hf
      have hold : fs.face? place = some (.file f) := by
        obtain hsame | ⟨-, hnew⟩ := hadds place
        · rw [← hsame, hq]
        · rw [hq] at hnew
          cases hnew
      have hmissing : fs.advance .whole [] front = .error .missing := by
        obtain hd | hf | hpast | hmissing := h.leads_cases htop front
        · obtain ⟨q, ha', hq'⟩ := hd.of_extends hadds.extends
          rw [ha] at ha'
          cases ha'
          rw [hq] at hq'
          cases hq'
        · exact absurd ⟨front, back, hnames, hback, hf⟩ hnot
        · obtain ⟨front', back', rfl, hback', hf⟩ := hpast
          refine absurd ⟨front', back' ++ back, ?_, by simp [hback], hf⟩ hnot
          rw [hnames, List.append_assoc]
        · exact hmissing
      refine ⟨made, front, back, place, f, hnames, hback, ?_, hmissing, hmade, ha, hold⟩
      by_contra hfront
      have hlink := h.of_extends hadds.extends
      cases advance_unlinked hfront (fun q target _ ↦ hlink q target) ha
      have hthere : fs.advance .whole [] front = .ok (.arrived ([] ++ front)) :=
        h.advance_place hfront (by rw [hold]; nofun)
      rw [hmissing] at hthere
      cases hthere
  · rintro ⟨made, front, back, -, -, hnames, hback, -, -, hmade, -⟩
    refine ⟨made, _, hmade, fun hp ↦ ?_⟩
    rw [← congrArg Path.segments hp] at hnames
    exact hback (List.append_right_eq_self.mp hnames.symm)

end Making

section Writing

theorem advance_allButLast_concat (ha : fs.advance .whole place names = .ok (.arrived q)) (name : Text) :
    fs.advance .allButLast place (names ++ [name]) = fs.advance .allButLast q [name] := by
  induction names generalizing place with
  | nil =>
    cases ha
    rfl
  | cons next names ih =>
    rw [List.cons_append]
    by_cases hnext : next = Path.dotDot
    · by_cases hplace : fs.face? place = some .directory
      · rw [hnext, advance_dotDot hplace] at ha
        rw [hnext, advance_dotDot hplace, ih ha]
      · rw [hnext, advance_dotDot_of_not_directory (by decide) hplace] at ha
        cases ha
    · cases hface : fs.face? (place ++ [next]) with
      | none => cases ((advance_missing hnext (by decide) hface).mp ha).2.1
      | some face =>
        have hlink : ∀ target, face ≠ .link target := by
          rintro target rfl
          rw [advance_link hnext hface] at ha
          cases ha
        rw [advance_step hnext hface hlink] at ha
        rw [advance_step hnext hface hlink, ih ha]

/-- In a directory a file can be written under every name that no directory has. -/
theorem IsLinkless.writable_eq (h : fs.IsLinkless) (ha : fs.advance .whole [] names = .ok (.arrived q))
    (hq : fs.face? q = some .directory) (hname : name ≠ Path.dotDot) :
    fs.writable ⟨root, names ++ [name]⟩ =
      if fs.hasDirectory (q ++ [name]) then .error ⟨.isDirectory, ⟨root, names ++ [name]⟩⟩
      else .ok (q ++ [name]) := by
  have hlast : fs.advance .allButLast q [name] = .ok (.arrived (q ++ [name])) := by
    cases hnext : fs.face? (q ++ [name]) with
    | none => exact (advance_missing hname (by decide) hnext).mpr ⟨hq, rfl, rfl, rfl⟩
    | some face =>
      rw [advance_step hname hnext fun target hface ↦ h _ target (hface ▸ hnext), advance]
  have hresolve : fs.resolve .allButLast ⟨root, names ++ [name]⟩ = .ok (q ++ [name]) := by
    rw [h.resolve_eq_ok_iff, advance_allButLast_concat ha, hlast]
  rw [writable, hresolve]

theorem writable_again_of_error (h : fs.IsLinkless) (hd : fs.LeadsToDirectory names)
    (hname : name ≠ Path.dotDot) (hext : fs.Extends fs') {e : FileError}
    (hw : fs.writable ⟨root, names ++ [name]⟩ = .error e) :
    fs'.writable ⟨root, names ++ [name]⟩ = .error e := by
  obtain ⟨q, ha, hq⟩ := hd
  have hq' := hext.directory q hq
  have ha' : fs'.advance .whole [] names = .ok (.arrived q) := by
    refine advance_extends hext (by decide) ?_ ha
    rintro - _ ⟨⟩
    simp [hq']
  rw [h.writable_eq ha hq hname] at hw
  split at hw
  · rename_i hdirectory
    have hdirectory' := hasDirectory_iff.mpr (hext.directory _ (hasDirectory_iff.mp hdirectory))
    rw [(h.of_extends hext).writable_eq ha' hq' hname, if_pos hdirectory', hw]
  · cases hw

theorem writable_again (hext : fs.Extends fs') (hw : fs.writable p = .ok q) {f : File}
    (hf : fs'.face? q = some (.file f)) : fs'.writable p = .ok q := by
  have hresolve : fs'.resolve .allButLast p = .ok q :=
    resolve_extends hext (by decide) nofun (resolve_of_writable hw)
  have hno : fs'.hasDirectory q = false := hasDirectory_eq_false_iff.mpr (by simp [hf])
  rw [writable, hresolve]
  simp [hno]

end Writing

end FileSystem

end MessageExtraction
