import MessageExtraction.Path
import Mathlib.Data.List.Basic

/-!
Paths as they are written. A path that starts at the root is read back from its text, the way to it
from a directory around it is what follows that directory, and so two files below a directory have one
path for their catalogs exactly when they stand in one directory and have one name up to its suffix.
-/

namespace MessageExtraction

namespace Text

variable {separator c : CodePoint} {t part : Text} {parts : List Text}

theorem splitAt_ne_nil (separator : CodePoint) (t : Text) : splitAt separator t ≠ [] := by
  cases t with
  | nil => simp [splitAt]
  | cons c cs =>
    rw [splitAt]
    split
    · simp
    · split <;> simp

theorem splitAt_cons_separator (t : Text) :
    splitAt separator (separator :: t) = [] :: splitAt separator t := by
  rw [splitAt]
  cases h : splitAt separator t with
  | nil => exact absurd h (splitAt_ne_nil separator t)
  | cons part parts => exact if_pos rfl

theorem splitAt_cons_of_ne (hc : c ≠ separator) (h : splitAt separator t = part :: parts) :
    splitAt separator (c :: t) = (c :: part) :: parts := by
  rw [splitAt, h]
  exact if_neg hc

theorem notMem_of_mem_splitAt (h : part ∈ splitAt separator t) : separator ∉ part := by
  induction t generalizing part with
  | nil =>
    obtain rfl := List.mem_singleton.mp h
    exact List.not_mem_nil
  | cons c t ih =>
    by_cases hc : c = separator
    · subst hc
      rw [splitAt_cons_separator] at h
      obtain rfl | h := List.mem_cons.mp h
      · exact List.not_mem_nil
      · exact ih h
    · obtain ⟨first, rest, hsplit⟩ := List.exists_cons_of_ne_nil (splitAt_ne_nil separator t)
      rw [splitAt_cons_of_ne hc hsplit] at h
      rw [hsplit] at ih
      obtain rfl | h := List.mem_cons.mp h
      · exact List.not_mem_cons_of_ne_of_not_mem (Ne.symm hc) (ih List.mem_cons_self)
      · exact ih (List.mem_cons_of_mem _ h)

theorem head?_splitAt (separator : CodePoint) (t : Text) :
    (splitAt separator t).head? = some (t.takeWhile (· != separator)) := by
  induction t with
  | nil => rfl
  | cons c t ih =>
    by_cases hc : c = separator
    · subst hc
      rw [splitAt_cons_separator]
      simp
    · obtain ⟨first, rest, hsplit⟩ := List.exists_cons_of_ne_nil (splitAt_ne_nil separator t)
      rw [hsplit, List.head?_cons, Option.some.injEq] at ih
      rw [splitAt_cons_of_ne hc hsplit, List.head?_cons, ih, List.takeWhile_cons_of_pos (by simpa using hc)]

theorem splitAt_append {part : Text} (h : separator ∉ part) (t : Text) :
    splitAt separator (part ++ separator :: t) = part :: splitAt separator t := by
  induction part with
  | nil => exact splitAt_cons_separator t
  | cons c part ih =>
    obtain ⟨hc, hpart⟩ := not_or.mp (mt List.mem_cons.mpr h)
    rw [List.cons_append, splitAt, ih hpart]
    exact if_neg (Ne.symm hc)

theorem splitAt_of_notMem {part : Text} (h : separator ∉ part) : splitAt separator part = [part] := by
  induction part with
  | nil => rfl
  | cons c part ih =>
    obtain ⟨hc, hpart⟩ := not_or.mp (mt List.mem_cons.mpr h)
    rw [splitAt, ih hpart]
    exact if_neg (Ne.symm hc)

theorem splitAt_joinWith {parts : List Text} (hne : parts ≠ []) (h : ∀ part ∈ parts, separator ∉ part) :
    splitAt separator (joinWith [separator] parts) = parts := by
  induction parts with
  | nil => exact absurd rfl hne
  | cons part parts ih =>
    obtain ⟨hpart, hparts⟩ := List.forall_mem_cons.mp h
    cases parts with
    | nil => exact splitAt_of_notMem hpart
    | cons next parts =>
      rw [joinWith, List.append_assoc, List.singleton_append, splitAt_append hpart,
        ih (by simp) hparts]
      simp

end Text

namespace Path

/-- A text that can stand between the slashes of a path. -/
def IsSegment (t : Text) : Prop := t ≠ [] ∧ t ≠ [CodePoint.period] ∧ CodePoint.slash ∉ t

/-- A text that can name something in a directory. -/
def IsName (t : Text) : Prop := IsSegment t ∧ t ≠ dotDot

instance : DecidablePred IsSegment := fun _ ↦ inferInstanceAs (Decidable (_ ∧ _))

instance : DecidablePred IsName := fun _ ↦ inferInstanceAs (Decidable (_ ∧ _))

theorem IsSegment.isNamed {t : Text} (h : IsSegment t) : isNamed t = true := by
  simp [Path.isNamed, h.1, h.2.1]

/-- The path of what names lead to from a directory. -/
def under (directory : Path) (names : List Text) : Path :=
  ⟨directory.root, directory.segments ++ names⟩

theorem child_under (directory : Path) (name : Text) (names : List Text) :
    (directory.child name).under names = directory.under (name :: names) := by
  simp [under, child]

/-- A path of something that stands in or below a directory. -/
def IsBelow (p directory : Path) : Prop := ∃ names, names ≠ [] ∧ p = directory.under names

theorem isBelow_child (directory : Path) (name : Text) : (directory.child name).IsBelow directory :=
  ⟨[name], by simp, rfl⟩

theorem IsBelow.of_child {p directory : Path} {name : Text} (h : p.IsBelow (directory.child name)) :
    p.IsBelow directory := by
  obtain ⟨names, -, rfl⟩ := h
  exact ⟨name :: names, by simp, child_under directory name names⟩

variable {segments above names names' : List Text}

theorem rootOf_joinWith (h : ∀ t ∈ segments, IsSegment t) :
    rootOf (CodePoint.slash :: Text.joinWith [CodePoint.slash] segments) = [CodePoint.slash] := by
  cases segments with
  | nil => rfl
  | cons first rest =>
    obtain ⟨hfirst, -, hslash⟩ := h first List.mem_cons_self
    cases first with
    | nil => exact absurd rfl hfirst
    | cons c first =>
      have hjoin : ∃ more, Text.joinWith [CodePoint.slash] ((c :: first) :: rest) = c :: more := by
        cases rest with
        | nil => exact ⟨first, rfl⟩
        | cons next rest => exact ⟨_, rfl⟩
      obtain ⟨more, hmore⟩ := hjoin
      have hc : (c == CodePoint.slash) = false :=
        beq_eq_false_iff_ne.mpr fun hc ↦ hslash (hc ▸ List.mem_cons_self)
      rw [hmore, rootOf, List.takeWhile_cons_of_pos (by simp), List.takeWhile_cons_of_neg (by simp [hc])]
      rfl

theorem ofText_toText (h : ∀ t ∈ segments, IsSegment t) :
    ofText (toText ⟨[CodePoint.slash], segments⟩) = ⟨[CodePoint.slash], segments⟩ := by
  have htext : toText ⟨[CodePoint.slash], segments⟩ =
      CodePoint.slash :: Text.joinWith [CodePoint.slash] segments := rfl
  have hslash : ∀ t ∈ segments, CodePoint.slash ∉ t := fun t ht ↦ (h t ht).2.2
  have hnamed : segments.filter isNamed = segments :=
    List.filter_eq_self.mpr fun t ht ↦ (h t ht).isNamed
  rw [htext, ofText, rootOf_joinWith h, Text.splitAt_cons_separator]
  cases segments with
  | nil => rfl
  | cons first rest =>
    rw [Text.splitAt_joinWith (by simp) hslash, List.filter_cons_of_neg (by simp [Path.isNamed]),
      hnamed]

theorem foldl_step_of_notMem (h : dotDot ∉ segments) (reversed : List Text) :
    segments.foldl step reversed = segments.reverse ++ reversed := by
  induction segments generalizing reversed with
  | nil => rfl
  | cons t segments ih =>
    obtain ⟨ht, hsegments⟩ := not_or.mp (mt List.mem_cons.mpr h)
    rw [List.foldl_cons, ih hsegments, step, if_neg (Ne.symm ht)]
    simp

theorem normalized_eq_self (h : dotDot ∉ segments) : normalized segments = segments := by
  rw [normalized, foldl_step_of_notMem h]
  simp

theorem dropShared_append (above names : List Text) :
    dropShared (above ++ names) above = (names, []) := by
  induction above with
  | nil => cases names <;> rfl
  | cons t above ih => rw [List.cons_append, dropShared, if_pos rfl, ih]

theorem ofSource_below (habove : ∀ t ∈ above, IsName t) (hnames : ∀ t ∈ names, IsName t) :
    ofSource ⟨[CodePoint.slash], above ++ names⟩ ⟨[CodePoint.slash], above⟩ = ⟨[], names⟩ := by
  have habove' : dotDot ∉ above := fun h ↦ (habove _ h).2 rfl
  have hnames' : dotDot ∉ names := fun h ↦ (hnames _ h).2 rfl
  have hjoin : join ⟨[CodePoint.slash], above⟩ ⟨[CodePoint.slash], above ++ names⟩ =
      ⟨[CodePoint.slash], above ++ names⟩ := rfl
  rw [ofSource, hjoin, relativeTo, normalized_eq_self habove',
    normalized_eq_self (by simp [habove', hnames']), dropShared_append]
  rfl

theorem name_below (root : Text) (above : List Text) (hnames : names ≠ []) :
    name ⟨root, above ++ names⟩ = name ⟨[], names⟩ := by
  rw [name, name, List.getLast?_append_of_ne_nil _ hnames]

/-- The catalog of a file below a directory: the directories between are kept. -/
theorem ofCatalog_below (messages : Path) (habove : ∀ t ∈ above, IsName t) (hne : names ≠ [])
    (hnames : ∀ t ∈ names, IsName t) :
    ofCatalog messages ⟨[CodePoint.slash], above ++ names⟩ ⟨[CodePoint.slash], above⟩ =
      ⟨messages.root, messages.segments ++ (names.dropLast ++
        [stem ⟨[CodePoint.slash], above ++ names⟩ ++ (".json" : Text)])⟩ := by
  have hdirectories : names.dropLast.filter (· != dotDot) = names.dropLast := by
    rw [List.filter_eq_self]
    intro t ht
    simpa using (hnames t (List.dropLast_subset _ ht)).2
  rw [ofCatalog, ofSource_below habove hnames, stem, stem, name_below _ _ hne]
  simp only [parent, hdirectories, List.append_assoc]

/-- Two files below a directory have one path for their catalogs exactly when they stand in one
directory and have one name up to its suffix. -/
theorem ofCatalog_eq_iff (messages : Path) (habove : ∀ t ∈ above, IsName t) (hne : names ≠ [])
    (hnames : ∀ t ∈ names, IsName t) (hne' : names' ≠ []) (hnames' : ∀ t ∈ names', IsName t) :
    let p : Path := ⟨[CodePoint.slash], above ++ names⟩
    let p' : Path := ⟨[CodePoint.slash], above ++ names'⟩
    ofCatalog messages p ⟨[CodePoint.slash], above⟩ = ofCatalog messages p' ⟨[CodePoint.slash], above⟩ ↔
      p.parent = p'.parent ∧ p.stem = p'.stem := by
  intro p p'
  rw [ofCatalog_below messages habove hne hnames, ofCatalog_below messages habove hne' hnames']
  simp [p, p', parent, List.dropLast_append_of_ne_nil hne, List.dropLast_append_of_ne_nil hne']

theorem dotDot_notMem_catalog (hnames : ∀ t ∈ names, IsName t) (stem : Text) :
    dotDot ∉ names.dropLast ++ [stem ++ (".json" : Text)] := by
  intro h
  rcases List.mem_append.mp h with h | h
  · exact (hnames _ (List.dropLast_subset _ h)).2 rfl
  · have hlength := congrArg List.length (List.mem_singleton.mp h)
    have hjson : List.length (Text.ofString ".json") = 5 := by decide
    have hdots : List.length dotDot = 2 := rfl
    rw [List.length_append] at hlength
    omega

end Path

end MessageExtraction
