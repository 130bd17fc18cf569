import MessageExtraction.Proofs.FileSystem.Faces

/-!
Where paths lead. A path that a file can be written to leads into a directory, to nothing or to a
file; and where a path has led it leads again as long as nothing that is there changes its kind.
-/

namespace MessageExtraction.FileSystem

variable {fs fs' : FileSystem} {p : Path} {place above q names rest : List Text} {name : Text}
  {demand : Demand} {stop : Stop} {target : Path}

theorem hasDirectory_eq_false_iff :
    fs.hasDirectory place = false ↔ fs.face? place ≠ some .directory := by
  rw [ne_eq, ← hasDirectory_iff, Bool.not_eq_true]

theorem advance_dotDot (hplace : fs.face? place = some .directory) :
    fs.advance demand place (Path.dotDot :: rest) = fs.advance demand place.dropLast rest := by
  rw [advance, if_pos rfl, hasDirectory_iff.mpr hplace]
  simp

theorem advance_dotDot_of_not_directory (hd : demand ≠ .nothing)
    (hplace : fs.face? place ≠ some .directory) :
    fs.advance demand place (Path.dotDot :: rest) = .error .notDirectory := by
  rw [advance, if_pos rfl, hasDirectory_eq_false_iff.mpr hplace]
  simp [hd]

theorem advance_link (hname : name ≠ Path.dotDot)
    (hnext : fs.face? (place ++ [name]) = some (.link target)) :
    fs.advance demand place (name :: rest) = .ok (.link place target rest) := by
  obtain ⟨i, hi, hface⟩ := Option.map_eq_some_iff.mp hnext
  cases i with
  | file f => cases hface
  | directory items => cases hface
  | link t =>
    cases hface
    rw [advance, if_neg hname]
    simp only [hi]

theorem advance_step (hname : name ≠ Path.dotDot) {face : Face}
    (hnext : fs.face? (place ++ [name]) = some face) (hlink : ∀ target, face ≠ .link target) :
    fs.advance demand place (name :: rest) = fs.advance demand (place ++ [name]) rest := by
  obtain ⟨i, hi, rfl⟩ := Option.map_eq_some_iff.mp hnext
  rw [advance, if_neg hname]
  cases i with
  | file f => simp only [hi]
  | directory items => simp only [hi]
  | link t => exact absurd rfl (hlink t)

/-- A path of names leads to the place that it names, if what stands there is no link. -/
theorem advance_place (hnames : Path.dotDot ∉ names) {face : Face}
    (hq : fs.face? (place ++ names) = some face) (hlink : ∀ target, face ≠ .link target) :
    fs.advance demand place names = .ok (.arrived (place ++ names)) := by
  induction names generalizing place with
  | nil => rw [List.append_nil, advance]
  | cons name names ih =>
    obtain ⟨hname, hnames⟩ := not_or.mp (mt List.mem_cons.mpr hnames)
    rw [List.append_cons] at hq ⊢
    obtain ⟨next, hnext, hno⟩ :
        ∃ next, fs.face? (place ++ [name]) = some next ∧ ∀ target, next ≠ .link target := by
      obtain rfl | ⟨inner, last, rfl⟩ := List.eq_nil_or_concat names
      · exact ⟨face, by rwa [List.append_nil] at hq, hlink⟩
      · -- Something stands further down, so that this is a directory.
        rw [List.concat_eq_append, ← List.append_assoc] at hq
        have habove := face?_above (by rw [hq]; rfl : (fs.face? (place ++ [name] ++ inner ++ [last])).isSome)
        exact ⟨.directory, face?_of_isPrefix (List.prefix_append _ _) habove, nofun⟩
    rw [advance_step (Ne.symm hname) hnext hno, ih hnames hq]

/-- Where nothing stands, only the last name can be taken, and only for a file to be made there. -/
theorem advance_missing (hname : name ≠ Path.dotDot) (hd : demand ≠ .nothing)
    (hnext : fs.face? (place ++ [name]) = none) :
    fs.advance demand place (name :: rest) = .ok stop ↔
      fs.face? place = some .directory ∧ demand = .allButLast ∧ rest = [] ∧
        stop = .arrived (place ++ [name]) := by
  rw [advance, if_neg hname]
  simp only [Option.map_eq_none_iff.mp hnext, if_neg hd]
  by_cases hplace : fs.face? place = some .directory
  · rw [hasDirectory_iff.mpr hplace]
    by_cases hlast : demand = .allButLast ∧ rest = []
    · simp [hlast, hplace, eq_comm]
    · rw [← and_assoc (a := demand = .allButLast)]
      simp [hlast, hplace]
  · simp [hasDirectory_eq_false_iff.mpr hplace, hplace]

theorem advance_nothing (hname : name ≠ Path.dotDot)
    (hlink : ∀ target, fs.face? (place ++ [name]) ≠ some (.link target)) :
    fs.advance .nothing place (name :: rest) = fs.advance .nothing (place ++ [name]) rest := by
  cases hnext : fs.face? (place ++ [name]) with
  | some face => exact advance_step hname hnext (by simpa [hnext] using hlink)
  | none =>
    rw [advance, if_neg hname]
    simp only [Option.map_eq_none_iff.mp hnext, if_pos]

theorem advance_of_not_directory (hd : demand ≠ .nothing) (hplace : fs.face? place ≠ some .directory)
    (h : fs.advance demand place names = .ok stop) : names = [] := by
  cases names with
  | nil => rfl
  | cons name rest =>
    by_cases hname : name = Path.dotDot
    · rw [hname, advance_dotDot_of_not_directory hd hplace] at h
      cases h
    · have hnone : fs.face? (place ++ [name]) = none := by
        rw [← Option.not_isSome_iff_eq_none]
        exact mt face?_above hplace
      exact absurd ((advance_missing hname hd hnone).mp h).1 hplace

/-- The way through links: names lead to their end, or to a link that is followed in turn. -/
theorem follow_eq_ok_iff {links : Nat} : fs.follow demand links place names = .ok q ↔
    fs.advance demand place names = .ok (.arrived q) ∨
      ∃ base target rest fewer, links = fewer + 1 ∧
        fs.advance demand place names = .ok (.link base target rest) ∧
        fs.follow demand fewer (if target.isAbsolute then [] else base) (target.segments ++ rest) =
          .ok q := by
  conv => lhs; unfold follow
  cases fs.advance demand place names with
  | error e => simp
  | ok stop => cases stop <;> cases links <;> simp [and_assoc]

theorem resolve_place {root : Text} (hnames : Path.dotDot ∉ names) {face : Face}
    (hq : fs.face? names = some face) (hlink : ∀ target, face ≠ .link target) :
    fs.resolve demand ⟨root, names⟩ = .ok names :=
  follow_eq_ok_iff.mpr (.inl (advance_place hnames (by rwa [List.nil_append]) hlink))

theorem find?_place {root : Text} (hnames : Path.dotDot ∉ names) {i : Item} (hi : fs.at? names = some i)
    (hlink : ∀ target, i ≠ .link target) : fs.find? ⟨root, names⟩ = some i := by
  have hface : fs.face? names = some i.face := by rw [face?, hi]; rfl
  have hno (target : Path) : i.face ≠ .link target := by
    cases i with
    | link t => exact absurd rfl (hlink t)
    | file f => simp [Item.face]
    | directory items => simp [Item.face]
  rw [find?, resolve_place hnames hface hno]
  exact hi

/-- A file is read under the names that lead to it. -/
theorem read_place {root : Text} (hnames : Path.dotDot ∉ names) {f : File}
    (hf : fs.face? names = some (.file f)) : fs.read ⟨root, names⟩ = .ok f := by
  rw [read, resolve_place hnames hf nofun]
  obtain ⟨i, hi, hface⟩ := Option.map_eq_some_iff.mp hf
  cases i with
  | file g =>
    cases hface
    simp only [hi]
  | link target => cases hface
  | directory items => cases hface

section Places

/-- A place in a directory where a file stands or may be made. -/
def TakesFile (fs : FileSystem) (q : List Text) : Prop :=
  ∃ above name, q = above ++ [name] ∧ name ≠ Path.dotDot ∧ fs.face? above = some .directory ∧
    (fs.face? q = none ∨ ∃ f, fs.face? q = some (.file f))

/-- Names that are taken from a directory lead to a directory, to a place for a file, or to a link in a
directory. -/
theorem advance_cases (hd : demand ≠ .nothing) (hplace : fs.face? place = some .directory)
    (h : fs.advance demand place names = .ok stop) :
    (∃ q, stop = .arrived q ∧ (fs.face? q = some .directory ∨ fs.TakesFile q)) ∨
      ∃ base target rest, stop = .link base target rest ∧ fs.face? base = some .directory := by
  induction names generalizing place with
  | nil => exact .inl ⟨place, (Except.ok.inj h).symm, .inl hplace⟩
  | cons name rest ih =>
    by_cases hname : name = Path.dotDot
    · rw [hname, advance_dotDot hplace] at h
      exact ih (face?_of_isPrefix (List.dropLast_prefix place) hplace) h
    · cases hnext : fs.face? (place ++ [name]) with
      | none =>
        obtain ⟨-, -, -, rfl⟩ := (advance_missing hname hd hnext).mp h
        exact .inl ⟨_, rfl, .inr ⟨place, name, rfl, hname, hplace, .inl hnext⟩⟩
      | some face =>
        cases face with
        | link target =>
          rw [advance_link hname hnext] at h
          exact .inr ⟨place, target, rest, (Except.ok.inj h).symm, hplace⟩
        | directory =>
          rw [advance_step hname hnext nofun] at h
          exact ih hnext h
        | file f =>
          rw [advance_step hname hnext nofun] at h
          obtain rfl := advance_of_not_directory hd (by simp [hnext]) h
          exact .inl ⟨_, (Except.ok.inj h).symm, .inr ⟨place, name, rfl, hname, hplace, .inr ⟨f, hnext⟩⟩⟩

theorem follow_cases (hd : demand ≠ .nothing) {links : Nat}
    (hplace : fs.face? place = some .directory) (h : fs.follow demand links place names = .ok q) :
    fs.face? q = some .directory ∨ fs.TakesFile q := by
  induction links using Nat.strongRecOn generalizing place names with
  | ind links ih =>
    obtain ha | ⟨base, target, rest, fewer, rfl, ha, h⟩ := follow_eq_ok_iff.mp h
    · obtain ⟨_, ⟨⟩, hq⟩ | ⟨_, _, _, ⟨⟩, -⟩ := advance_cases hd hplace ha
      exact hq
    · obtain ⟨_, ⟨⟩, -⟩ | ⟨_, _, _, ⟨⟩, hbase⟩ := advance_cases hd hplace ha
      refine ih fewer (Nat.lt_succ_self _) ?_ h
      split
      · exact face?_of_isPrefix List.nil_prefix hplace
      · exact hbase

theorem takesFile_of_writable (hp : p.segments ≠ []) (h : fs.writable p = .ok q) :
    fs.TakesFile q := by
  rw [writable] at h
  cases hr : fs.resolve .allButLast p with
  | error e => simp [hr] at h
  | ok place =>
    simp only [hr] at h
    split at h
    · cases h
    · rename_i hdirectory
      rw [hasDirectory_iff] at hdirectory
      obtain rfl := Except.ok.inj h
      -- From a top that is no directory not even the first name could have been taken.
      have hroot : fs.face? [] = some .directory := by
        by_contra hroot
        obtain ha | ⟨_, _, _, _, _, ha, -⟩ := follow_eq_ok_iff.mp hr <;>
          exact hp (advance_of_not_directory (by decide) hroot ha)
      exact (follow_cases (by decide) hroot hr).resolve_left hdirectory

theorem resolve_of_writable (h : fs.writable p = .ok q) : fs.resolve .allButLast p = .ok q := by
  rw [writable] at h
  cases hr : fs.resolve .allButLast p with
  | error e => simp [hr] at h
  | ok place =>
    simp only [hr] at h
    split at h
    · cases h
    · rw [Except.ok.inj h]

end Places

section Later

/-- Files that come of others without anything changing its kind: links and directories stay as they
are, files stay files, and what is new is no link. -/
structure Extends (fs fs' : FileSystem) : Prop where
  link_iff : ∀ q target, fs'.face? q = some (.link target) ↔ fs.face? q = some (.link target)
  directory : ∀ q, fs.face? q = some .directory → fs'.face? q = some .directory
  file : ∀ q f, fs.face? q = some (.file f) → ∃ f', fs'.face? q = some (.file f')

theorem Extends.refl (fs : FileSystem) : fs.Extends fs where
  link_iff _ _ := .rfl
  directory _ h := h
  file _ f h := ⟨f, h⟩

theorem Extends.trans {mid : FileSystem} (h : fs.Extends mid) (h' : mid.Extends fs') :
    fs.Extends fs' where
  link_iff q target := (h'.link_iff q target).trans (h.link_iff q target)
  directory q hq := h'.directory q (h.directory q hq)
  file q f hq := by
    obtain ⟨f', hf'⟩ := h.file q f hq
    exact h'.file q f' hf'

theorem AddsDirectories.extends (h : fs.AddsDirectories fs') : fs.Extends fs' where
  link_iff q target := by
    obtain hq | ⟨hq, hq'⟩ := h q
    · rw [hq]
    · rw [hq, hq']
      simp
  directory q hq := by
    obtain hq' | ⟨hnone, -⟩ := h q
    · rw [hq', hq]
    · rw [hnone] at hq
      cases hq
  file q f hq := by
    obtain hq' | ⟨hnone, -⟩ := h q
    · exact ⟨f, by rw [hq', hq]⟩
    · rw [hnone] at hq
      cases hq

theorem TakesFile.face?_set {f : File} (h : fs.TakesFile q) :
    (fs.set q (.file f)).face? = Function.update fs.face? q (some (.file f)) := by
  obtain ⟨above, name, rfl, -, habove, hnone | ⟨f', hf'⟩⟩ := h
  · exact FileSystem.face?_set trivial habove (by simp [hnone])
  · exact FileSystem.face?_set trivial habove (by simp [hf'])

theorem TakesFile.bytesAt?_set {f : File} (h : fs.TakesFile q) :
    (fs.set q (.file f)).bytesAt? = Function.update fs.bytesAt? q (some f.bytes) := by
  funext r
  rw [bytesAt?, h.face?_set]
  by_cases hr : r = q <;> simp [hr, bytesAt?]

theorem TakesFile.extends_set {f : File} (h : fs.TakesFile q) : fs.Extends (fs.set q (.file f)) := by
  have hset := h.face?_set (f := f)
  obtain ⟨-, -, -, -, -, hq⟩ := h
  refine ⟨fun r target ↦ ?_, fun r hr ↦ ?_, fun r g hr ↦ ?_⟩ <;>
    rw [hset, Function.update_apply] <;> split
  · rename_i hrq
    obtain hq | ⟨g, hq⟩ := hq <;> simp [hrq, hq]
  · rfl
  · rename_i hrq
    obtain hq | ⟨g, hq⟩ := hq <;> simp [hrq, hq] at hr
  · exact hr
  · exact ⟨f, rfl⟩
  · exact ⟨g, hr⟩

/-- Names that could be taken can still be taken, to the same end. -/
theorem advance_extends (h : fs.Extends fs') (hd : demand ≠ .nothing) {demand' : Demand}
    (hend : demand' = .whole → ∀ q, stop = .arrived q → fs'.face? q ≠ none)
    (ha : fs.advance demand place names = .ok stop) : fs'.advance demand' place names = .ok stop := by
  induction names generalizing place with
  | nil => exact ha
  | cons name rest ih =>
    by_cases hname : name = Path.dotDot
    · by_cases hplace : fs.face? place = some .directory
      · rw [hname, advance_dotDot hplace] at ha
        rw [hname, advance_dotDot (h.directory place hplace)]
        exact ih ha
      · rw [hname, advance_dotDot_of_not_directory hd hplace] at ha
        cases ha
    · cases hnext : fs.face? (place ++ [name]) with
      | none =>
        obtain ⟨hplace, -, rfl, rfl⟩ := (advance_missing hname hd hnext).mp ha
        -- The last name, for a file that was to be made: by now one may stand there, but no link.
        have hlink : ∀ target, fs'.face? (place ++ [name]) ≠ some (.link target) := by
          intro target
          rw [ne_eq, h.link_iff, hnext]
          simp
        cases hnext' : fs'.face? (place ++ [name]) with
        | some face => exact advance_step hname hnext' (by simpa [hnext'] using hlink)
        | none =>
          cases demand' with
          | whole => exact absurd hnext' (hend rfl _ rfl)
          | allButLast =>
            exact (advance_missing hname (by decide) hnext').mpr
              ⟨h.directory place hplace, rfl, rfl, rfl⟩
          | nothing => exact advance_nothing hname hlink
      | some face =>
        cases face with
        | link target =>
          rw [advance_link hname hnext] at ha
          rw [advance_link hname ((h.link_iff _ _).mpr hnext), ha]
        | directory =>
          rw [advance_step hname hnext nofun] at ha
          rw [advance_step hname (h.directory _ hnext) nofun]
          exact ih ha
        | file f =>
          obtain ⟨f', hf'⟩ := h.file _ _ hnext
          rw [advance_step hname hnext nofun] at ha
          rw [advance_step hname hf' nofun]
          exact ih ha

theorem follow_extends (h : fs.Extends fs') (hd : demand ≠ .nothing) {demand' : Demand} {links : Nat}
    (hend : demand' = .whole → fs'.face? q ≠ none)
    (hf : fs.follow demand links place names = .ok q) :
    fs'.follow demand' links place names = .ok q := by
  induction links using Nat.strongRecOn generalizing place names with
  | ind links ih =>
    obtain ha | ⟨base, target, rest, fewer, rfl, ha, hf⟩ := follow_eq_ok_iff.mp hf
    · exact follow_eq_ok_iff.mpr (.inl (advance_extends h hd (by rintro hw _ ⟨⟩; exact hend hw) ha))
    · have hrest := ih fewer (Nat.lt_succ_self _) hf
      exact follow_eq_ok_iff.mpr
        (.inr ⟨base, target, rest, fewer, rfl, advance_extends h hd nofun ha, hrest⟩)

/-- Where a path has led, it leads again, also when less of it has to be there. -/
theorem resolve_extends (h : fs.Extends fs') (hd : demand ≠ .nothing) {demand' : Demand}
    (hend : demand' = .whole → fs'.face? q ≠ none) (hr : fs.resolve demand p = .ok q) :
    fs'.resolve demand' p = .ok q :=
  follow_extends h hd hend hr

end Later

section Below

theorem advance_append (fs : FileSystem) (place names more : List Text) :
    fs.advance .whole place (names ++ more) =
      match fs.advance .whole place names with
      | .error e => .error e
      | .ok (.arrived q) => fs.advance .whole q more
      | .ok (.link base target rest) => .ok (.link base target (rest ++ more)) := by
  induction names generalizing place with
  | nil => rfl
  | cons name rest ih =>
    rw [List.cons_append, advance, advance]
    split
    · split
      · rfl
      · exact ih _
    · simp only []
      cases fs.at? (place ++ [name]) with
      | none => cases fs.hasDirectory place <;> simp
      | some i =>
        cases i with
        | link target => rfl
        | file f => exact ih _
        | directory items => exact ih _

theorem follow_append {links : Nat} {more : List Text}
    (h : fs.follow .whole links place (names ++ more) = .ok q) :
    ∃ mid fewer, fs.follow .whole links place names = .ok mid ∧
      fs.follow .whole fewer mid more = .ok q := by
  -- Links are used up on the way, so the rest of the path is followed with those that are left.
  induction links using Nat.strongRecOn generalizing place names with
  | ind links ih =>
    cases ha : fs.advance .whole place names with
    | error e =>
      unfold follow at h
      simp [advance_append, ha] at h
    | ok stop =>
      cases stop with
      | arrived mid =>
        refine ⟨mid, links, follow_eq_ok_iff.mpr (.inl ha), ?_⟩
        unfold follow at h ⊢
        rwa [advance_append, ha] at h
      | link base target rest =>
        have happend := advance_append fs place names more
        rw [ha] at happend
        obtain ha' | ⟨_, _, _, fewer, rfl, ha', h⟩ := follow_eq_ok_iff.mp h
        · rw [happend] at ha'
          cases ha'
        · rw [happend] at ha'
          cases ha'
          rw [← List.append_assoc] at h
          obtain ⟨mid, left, hmid, hq⟩ := ih fewer (Nat.lt_succ_self _) h
          exact ⟨mid, left,
            follow_eq_ok_iff.mpr (.inr ⟨base, target, rest, fewer, rfl, ha, hmid⟩), hq⟩

theorem advance_unlinked (hnames : Path.dotDot ∉ names)
    (hlink : ∀ q target, place <+: q → fs.face? q ≠ some (.link target))
    (h : fs.advance .whole place names = .ok stop) : stop = .arrived (place ++ names) := by
  induction names generalizing place with
  | nil => rw [List.append_nil, ← Except.ok.inj h]
  | cons name rest ih =>
    obtain ⟨hname, hrest⟩ := not_or.mp (mt List.mem_cons.mpr hnames)
    cases hnext : fs.face? (place ++ [name]) with
    | none => cases ((advance_missing (Ne.symm hname) (by decide) hnext).mp h).2.1
    | some face =>
      have hbelow : place <+: place ++ [name] := List.prefix_append _ _
      rw [advance_step (Ne.symm hname) hnext (by simpa [hnext] using hlink _ · hbelow)] at h
      have := ih hrest (fun q target hq ↦ hlink q target (hbelow.trans hq)) h
      rwa [List.append_assoc] at this

/-- Below a directory without links a path leads to the place that it names. -/
theorem resolve_below {root : Text} {directory more : List Text}
    (h : fs.resolve .whole ⟨root, directory ++ more⟩ = .ok q) (hmore : Path.dotDot ∉ more)
    (hlink : ∀ base, fs.resolve .whole ⟨root, directory⟩ = .ok base →
      ∀ q target, base <+: q → fs.face? q ≠ some (.link target)) :
    ∃ base, fs.resolve .whole ⟨root, directory⟩ = .ok base ∧ q = base ++ more := by
  obtain ⟨base, fewer, hbase, hq⟩ := follow_append h
  refine ⟨base, hbase, ?_⟩
  obtain ha | ⟨_, _, _, _, _, ha, -⟩ := follow_eq_ok_iff.mp hq <;>
    cases advance_unlinked hmore (hlink base hbase) ha
  rfl

end Below

end MessageExtraction.FileSystem
