import MessageExtraction.Proofs.Path

/-!
The tree of catalogs mirrors the tree of sources. The way to a file from a directory leads from there to
where the file is, and the catalog of the file stands below the directory for messages, whatever steps
back are in the name of the file.
-/

namespace MessageExtraction

namespace Path

variable {p cwd filename : Path} {segments : List Text}

/-- A path whose segments can stand between slashes. -/
def IsWritten (p : Path) : Prop := ∀ t ∈ p.segments, IsSegment t

theorem isWritten_ofText (t : Text) : (ofText t).IsWritten := by
  intro part hpart
  obtain ⟨hmem, hnamed⟩ := List.mem_filter.mp hpart
  simp only [isNamed, Bool.and_eq_true, Bool.not_eq_true', List.isEmpty_eq_false_iff, bne_iff_ne] at hnamed
  exact ⟨hnamed.1, hnamed.2, Text.notMem_of_mem_splitAt hmem⟩

theorem IsWritten.join (hp : p.IsWritten) (hq : filename.IsWritten) : (p.join filename).IsWritten := by
  rw [Path.join]
  split
  · exact hq
  · exact List.forall_mem_append.mpr ⟨hp, hq⟩

/-- A path with every step back taken. -/
def normal (p : Path) : Path := ⟨p.root, normalized p.segments⟩

/-- As many steps back as there are segments in a list. -/
theorem foldl_step_back (up reversed : List Text) :
    (up.map fun _ ↦ dotDot).foldl step reversed = reversed.drop up.length := by
  induction up generalizing reversed with
  | nil => rfl
  | cons t up ih =>
    rw [List.map_cons, List.foldl_cons, ih, step, if_pos rfl, List.drop_drop, List.length_cons,
      Nat.add_comm]

theorem mem_of_mem_foldl_step {t : Text} {reversed : List Text} (h : t ∈ segments.foldl step reversed) :
    t ∈ reversed ∨ t ∈ segments ∧ t ≠ dotDot := by
  induction segments generalizing reversed with
  | nil => exact .inl h
  | cons first segments ih =>
    rw [List.foldl_cons] at h
    obtain h | ⟨h, hne⟩ := ih h
    · rw [step] at h
      split at h
      · exact .inl (List.mem_of_mem_drop h)
      · obtain rfl | h := List.mem_cons.mp h
        · exact .inr ⟨List.mem_cons_self, by assumption⟩
        · exact .inl h
    · exact .inr ⟨List.mem_cons_of_mem _ h, hne⟩

theorem mem_of_mem_normalized {t : Text} (h : t ∈ normalized segments) : t ∈ segments ∧ t ≠ dotDot :=
  (mem_of_mem_foldl_step (List.mem_reverse.mp h)).resolve_left List.not_mem_nil

theorem exists_shared (xs ys : List Text) :
    ∃ shared, xs = shared ++ (dropShared xs ys).1 ∧ ys = shared ++ (dropShared xs ys).2 := by
  induction xs generalizing ys with
  | nil => exact ⟨[], by simp [dropShared], by simp [dropShared]⟩
  | cons x xs ih =>
    cases ys with
    | nil => exact ⟨[], by simp [dropShared], by simp [dropShared]⟩
    | cons y ys =>
      rw [dropShared]
      split
      · rename_i hxy
        obtain ⟨shared, hxs, hys⟩ := ih ys
        refine ⟨x :: shared, ?_, ?_⟩
        · rw [List.cons_append, ← hxs]
        · rw [List.cons_append, ← hys, hxy]
      · exact ⟨[], rfl, rfl⟩

/-- The way to a path from a directory goes up to the nearest directory around both, and down from there. -/
theorem exists_relativeTo (p base : Path) : ∃ shared up below,
    normalized p.segments = shared ++ below ∧ normalized base.segments = shared ++ up ∧
      p.relativeTo base = ⟨[], up.map (fun _ ↦ dotDot) ++ below⟩ := by
  obtain ⟨shared, hbelow, hup⟩ := exists_shared (normalized p.segments) (normalized base.segments)
  exact ⟨shared, _, _, hbelow, hup, rfl⟩

/-- The way from a directory leads to the path. -/
theorem normalized_relativeTo (p base : Path) :
    normalized (base.segments ++ (p.relativeTo base).segments) = normalized p.segments := by
  obtain ⟨shared, up, below, hp, hbase, hway⟩ := exists_relativeTo p base
  have hbelow : dotDot ∉ below := by
    intro h
    have hmem : dotDot ∈ normalized p.segments := hp ▸ List.mem_append_right _ h
    exact (mem_of_mem_normalized hmem).2 rfl
  have hreversed : base.segments.foldl step [] = up.reverse ++ shared.reverse := by
    rw [← List.reverse_append, ← hbase, normalized, List.reverse_reverse]
  rw [hway, normalized, List.foldl_append, List.foldl_append, hreversed, foldl_step_back,
    ← List.length_reverse, List.drop_left, foldl_step_of_notMem hbelow, hp]
  simp

theorem segments_normal_join_ofSource (filename cwd : Path) :
    (normal (cwd.join (ofSource filename cwd))).segments = (normal (cwd.join filename)).segments :=
  normalized_relativeTo (cwd.join filename) cwd

/-- From the working directory the way to a file leads to the file, unless the name of the file begins
with another root. -/
theorem normal_join_ofSource_iff (filename cwd : Path) :
    normal (cwd.join (ofSource filename cwd)) = normal (cwd.join filename) ↔
      (filename.isAbsolute → filename.root = cwd.root) := by
  have hroot : (cwd.join (ofSource filename cwd)).root = cwd.root := rfl
  have hsegments := segments_normal_join_ofSource filename cwd
  simp only [normal] at hsegments
  rw [normal, normal, mk.injEq, hroot, hsegments, Path.join]
  cases filename.isAbsolute with
  | false => simp
  | true => simp [eq_comm]

/-- The way to what is below the working directory is what follows the directory. -/
theorem ofSource_eq_below {below : List Text}
    (h : (normal (cwd.join filename)).segments = (normal cwd).segments ++ below) :
    ofSource filename cwd = ⟨[], below⟩ := by
  have hsegments : normalized (cwd.join filename).segments = normalized cwd.segments ++ below := h
  rw [ofSource, relativeTo, hsegments, dropShared_append]
  rfl

theorem isSegment_dotDot : IsSegment dotDot := by decide

theorem IsWritten.ofSource (hfilename : filename.IsWritten) (hcwd : cwd.IsWritten) :
    (ofSource filename cwd).IsWritten := by
  obtain ⟨shared, up, below, hp, -, hway⟩ := exists_relativeTo (cwd.join filename) cwd
  rw [Path.ofSource, hway]
  intro t ht
  obtain ht | ht := List.mem_append.mp ht
  · obtain ⟨-, -, rfl⟩ := List.mem_map.mp ht
    exact isSegment_dotDot
  · have hmem : t ∈ normalized (cwd.join filename).segments := hp ▸ List.mem_append_right _ ht
    exact hcwd.join hfilename t (mem_of_mem_normalized hmem).1

theorem slash_notMem_stem (hp : p.IsWritten) : CodePoint.slash ∉ p.stem := by
  have hname : CodePoint.slash ∉ p.name := by
    rw [name]
    cases h : p.segments.getLast? with
    | none => exact List.not_mem_nil
    | some t => exact (hp t (List.mem_of_getLast? h)).2.2
  intro hmem
  rw [stem, splitName] at hmem
  split at hmem
  · exact hname (List.mem_of_mem_take hmem)
  · exact hname hmem

/-- A name of a catalog is longer than the two dots of a step back. -/
theorem isName_append_json {t : Text} (h : CodePoint.slash ∉ t) : IsName (t ++ (".json" : Text)) := by
  have hslash : CodePoint.slash ∉ Text.ofString ".json" := by decide
  have hne (u : Text) (hu : u.length < 5) : t ++ (".json" : Text) ≠ u := by
    have hjson : (Text.ofString ".json").length = 5 := by decide
    apply ne_of_apply_ne List.length
    rw [List.length_append, hjson]
    omega
  refine ⟨⟨hne [] (by decide), hne _ (by decide), ?_⟩, hne dotDot (by decide)⟩
  intro hmem
  obtain hmem | hmem := List.mem_append.mp hmem
  · exact h hmem
  · exact hslash hmem

/-- Whatever the name of a file, its catalog stands below the directory for messages under a name that
ends in `.json`, and the way to the file leads from the working directory to the place of the file: to
the same path, unless the file was named from another root. For a file below the working directory, the
directories between are those around the catalog. -/
theorem catalog_mirrors_source (messages : Path) (filename cwd : Text) :
    let file := (ofText cwd).join (ofText filename)
    let source := ofSource (ofText filename) (ofText cwd)
    ∃ directories name,
      ofCatalog messages (ofText filename) (ofText cwd) =
        messages.join ⟨[], directories ++ [name ++ (".json" : Text)]⟩ ∧
      (∀ t ∈ directories ++ [name ++ (".json" : Text)], IsName t) ∧
      (normal ((ofText cwd).join source)).segments = (normal file).segments ∧
      (normal ((ofText cwd).join source) = normal file ↔
        ((ofText filename).isAbsolute → (ofText filename).root = (ofText cwd).root)) ∧
      ∀ below, (normal file).segments = (normal (ofText cwd)).segments ++ below →
        source = ⟨[], below⟩ ∧ directories = below.dropLast := by
  intro file source
  have hsource : source.IsWritten := (isWritten_ofText filename).ofSource (isWritten_ofText cwd)
  refine ⟨source.parent.segments.filter (· != dotDot), source.stem, ?_, ?_,
    segments_normal_join_ofSource _ _, normal_join_ofSource_iff _ _, ?_⟩
  · rw [ofCatalog, List.append_assoc]
    rfl
  · intro t ht
    obtain ht | ht := List.mem_append.mp ht
    · obtain ⟨hmem, hne⟩ := List.mem_filter.mp ht
      exact ⟨hsource t (List.dropLast_subset _ hmem), bne_iff_ne.mp hne⟩
    · obtain rfl := List.mem_singleton.mp ht
      exact isName_append_json (slash_notMem_stem hsource)
  · intro below hbelow
    have hway : source = ⟨[], below⟩ := ofSource_eq_below hbelow
    refine ⟨hway, ?_⟩
    rw [hway, parent, List.filter_eq_self]
    intro t ht
    have hmem : t ∈ (normal file).segments := hbelow ▸ List.mem_append_right _ (List.dropLast_subset _ ht)
    exact bne_iff_ne.mpr (mem_of_mem_normalized hmem).2

/-- Two slashes are another root than one: a file that is named from it is looked for under the root of
the working directory. -/
theorem doubleSlash_led_elsewhere :
    let file : Path := "//x/a.js"
    let cwd : Path := "/x"
    normal (cwd.join (ofSource file cwd)) = ("/x/a.js" : Path) ∧
      normal (cwd.join file) = ("//x/a.js" : Path) ∧
      normal (cwd.join (ofSource file cwd)) ≠ normal (cwd.join file) := by
  decide

end Path

end MessageExtraction
