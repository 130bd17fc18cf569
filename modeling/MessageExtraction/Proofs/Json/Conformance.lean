import MessageExtraction.Proofs.Json.Grammar

/-!
The values that are put into words of the grammar of JSON are those whose doubles are all finite.
That the words of other values are not in the grammar is seen by reading a text from its start, in
and out of its strings: what is not finite is written with a capital letter, and outside of strings
the grammar has no such letter.
-/

namespace MessageExtraction.Json

open Number Text

section Scan

/-- Where one stands in a text that is read from its start. -/
inductive Mode where
  | outside
  | inside
  /-- Inside a string, after a backslash. -/
  | escaped
  /-- Past a letter that outside of strings has no place in the grammar. -/
  | stray
  deriving DecidableEq

def Mode.step : Mode → CodePoint → Mode
  | .outside, c =>
    if c = CodePoint.doubleQuote then .inside else if c = 0x49 ∨ c = 0x4E then .stray else .outside
  | .inside, c =>
    if c = CodePoint.doubleQuote then .outside else if c = CodePoint.backslash then .escaped
    else .inside
  | .escaped, _ => .inside
  | .stray, _ => .stray

def scan (t : Text) : Mode := t.foldl Mode.step .outside

theorem scan_append_of_outside {t : Text} (h : scan t = .outside) (u : Text) :
    scan (t ++ u) = scan u := by
  rw [scan, List.foldl_append]
  exact congrArg (u.foldl Mode.step) h

theorem scan_append_of_stray {t : Text} (h : scan t = .stray) (u : Text) :
    scan (t ++ u) = .stray := by
  have hstray : u.foldl Mode.step .stray = .stray := by
    induction u with
    | nil => rfl
    | cons c u ih => exact ih
  rw [scan, List.foldl_append]
  exact (congrArg (u.foldl Mode.step) h).trans hstray

/-- A character that neither opens a string nor begins a word that is not in the grammar. -/
def IsPlain (c : CodePoint) : Prop := c ≠ CodePoint.doubleQuote ∧ c ≠ 0x49 ∧ c ≠ 0x4E

instance : DecidablePred IsPlain := fun _ ↦ inferInstanceAs (Decidable (_ ∧ _))

theorem scan_of_isPlain {t : Text} (h : ∀ c ∈ t, IsPlain c) : scan t = .outside := by
  induction t with
  | nil => rfl
  | cons c t ih =>
    rw [List.forall_mem_cons] at h
    obtain ⟨⟨hquote, hI, hN⟩, ht⟩ := h
    have hstep : Mode.step .outside c = .outside := by simp [Mode.step, hquote, hI, hN]
    rw [scan, List.foldl_cons, hstep]
    exact ih ht

theorem scan_isSpacing {t : Text} (h : IsSpacing t) : scan t = .outside := by
  have hall : ∀ c ∈ [CodePoint.space, CodePoint.tab, CodePoint.lineFeed, CodePoint.carriageReturn],
    IsPlain c := by decide
  exact scan_of_isPlain fun c hc ↦ hall c (h c hc)

theorem isPlain_of_isDigits {t : Text} (h : IsDigits t) : ∀ c ∈ t, IsPlain c := by
  intro c hc
  have hdigit := h.2 c hc
  refine ⟨?_, ?_, ?_⟩ <;> rintro rfl <;> cases hdigit

theorem scan_isNumber {t : Text} (h : IsNumber t) : scan t = .outside := by
  obtain ⟨hminus, hwhole, -, hfraction, hpower⟩ := h
  refine scan_of_isPlain ?_
  simp only [List.forall_mem_append]
  refine ⟨?_, ⟨isPlain_of_isDigits hwhole, ?_⟩, ?_⟩
  · obtain rfl | rfl := hminus <;> decide
  · obtain rfl | ⟨ds, rfl, hds⟩ := hfraction
    · simp
    · exact List.forall_mem_cons.mpr ⟨by decide, isPlain_of_isDigits hds⟩
  · obtain rfl | ⟨e, sign, ds, rfl, he, hsign, hds⟩ := hpower
    · simp
    · rw [List.forall_mem_cons, List.forall_mem_append]
      refine ⟨?_, ?_, isPlain_of_isDigits hds⟩
      · obtain rfl | rfl := he <;> decide
      · obtain rfl | rfl | rfl := hsign <;> decide

theorem foldl_step_inside {t : Text}
    (h : ∀ c ∈ t, c ≠ CodePoint.doubleQuote ∧ c ≠ CodePoint.backslash) :
    t.foldl Mode.step .inside = .inside := by
  induction t with
  | nil => rfl
  | cons c t ih =>
    rw [List.forall_mem_cons] at h
    have hstep : Mode.step .inside c = .inside := by simp [Mode.step, h.1]
    rw [List.foldl_cons, hstep]
    exact ih h.2

theorem foldl_step_isCharacter {t : Text} (h : IsCharacter t) :
    t.foldl Mode.step .inside = .inside := by
  cases h with
  | plain _ hquote hbackslash => exact foldl_step_inside (by simp [hquote, hbackslash])
  | letter _ => rfl
  | @number ds _ hds =>
    refine foldl_step_inside (t := ds) fun d hd ↦ ?_
    have hhex := hds d hd
    refine ⟨?_, ?_⟩ <;> rintro rfl <;> cases hhex

theorem scan_isString {t : Text} (h : IsString t) : scan t = .outside := by
  obtain ⟨cs, hcs, rfl⟩ := h
  have hinside : cs.flatten.foldl Mode.step .inside = .inside := by
    induction cs with
    | nil => rfl
    | cons c cs ih =>
      rw [List.forall_mem_cons] at hcs
      rw [List.flatten_cons, List.foldl_append, foldl_step_isCharacter hcs.1]
      exact ih hcs.2
  have hopen : (CodePoint.doubleQuote :: cs.flatten).foldl Mode.step .outside = .inside := hinside
  rw [scan, List.foldl_append, hopen]
  rfl

theorem scan_joinWith {ts : List Text} (h : ∀ t ∈ ts, scan t = .outside) :
    scan (joinWith [CodePoint.comma] ts) = .outside := by
  induction ts with
  | nil => rfl
  | cons t ts ih =>
    rw [List.forall_mem_cons] at h
    by_cases hne : ts = []
    · rw [hne]
      exact h.1
    · rw [joinWith_cons _ _ hne, List.append_assoc, scan_append_of_outside h.1]
      exact ih h.2

theorem scan_padded {p : Padded} (h : scan p.inner = .outside) : scan p.text = .outside := by
  rw [Padded.text, List.append_assoc, scan_append_of_outside (scan_isSpacing p.isSpacing_before),
    scan_append_of_outside h, scan_isSpacing p.isSpacing_after]

theorem scan_bracketed {opening closing : CodePoint} {t : Text} (hopening : IsPlain opening)
    (hclosing : IsPlain closing) (h : scan t = .outside) :
    scan (opening :: t ++ [closing]) = .outside := by
  have hopen : scan [opening] = .outside := scan_of_isPlain (by simpa using hopening)
  have hclose : scan [closing] = .outside := scan_of_isPlain (by simpa using hclosing)
  rw [← List.singleton_append, List.append_assoc, scan_append_of_outside hopen,
    scan_append_of_outside h, hclose]

/-- A text of the grammar has no such letter and closes its strings. -/
theorem scan_isValue {t : Text} (h : IsValue t) : scan t = .outside := by
  induction h with
  | @word w hw =>
    have hall : ∀ w ∈ ["null", "true", "false"], scan (ofString w) = .outside := by decide
    exact hall w hw
  | number h => exact scan_isNumber h
  | string h => exact scan_isString h
  | emptyList h => exact scan_bracketed (by decide) (by decide) (scan_isSpacing h)
  | list _ _ ih =>
    refine scan_bracketed (by decide) (by decide) (scan_joinWith ?_)
    rw [List.forall_mem_map]
    exact fun p hp ↦ scan_padded (ih p hp)
  | emptyObject h => exact scan_bracketed (by decide) (by decide) (scan_isSpacing h)
  | object _ hnames _ ih =>
    refine scan_bracketed (by decide) (by decide) (scan_joinWith ?_)
    rw [List.forall_mem_map]
    intro m hm
    have hcolon : scan [CodePoint.colon] = .outside := rfl
    rw [scan_append_of_outside (scan_padded (scan_isString (hnames m hm))), ← List.singleton_append,
      scan_append_of_outside hcolon, scan_padded (ih m hm)]

end Scan

section Converse

variable {layout : Layout} {level : Nat}

/-- Reading a text tells whether something holds: it ends outside if it does and astray if not. -/
structure Tells (t : Text) (P : Prop) : Prop where
  outside : P → scan t = .outside
  stray : ¬P → scan t = .stray

theorem tells_true {t : Text} (h : scan t = .outside) : Tells t True := ⟨fun _ ↦ h, by simp⟩

theorem Tells.append {t u : Text} {P Q : Prop} (ht : Tells t P) (hu : Tells u Q) :
    Tells (t ++ u) (P ∧ Q) := by
  constructor
  · rintro ⟨hP, hQ⟩
    rw [scan_append_of_outside (ht.outside hP), hu.outside hQ]
  · intro h
    by_cases hP : P
    · rw [scan_append_of_outside (ht.outside hP), hu.stray fun hQ ↦ h ⟨hP, hQ⟩]
    · exact scan_append_of_stray (ht.stray hP) u

theorem Tells.congr {t : Text} {P Q : Prop} (h : Tells t P) (hPQ : P ↔ Q) : Tells t Q :=
  ⟨fun hQ ↦ h.outside (hPQ.mpr hQ), fun hQ ↦ h.stray (mt hPQ.mp hQ)⟩

theorem Tells.within {t before after : Text} {P : Prop} (h : Tells t P)
    (hbefore : scan before = .outside) (hafter : scan after = .outside) :
    Tells (before ++ t ++ after) P :=
  (((tells_true hbefore).append h).append (tells_true hafter)).congr (by simp)

theorem scan_itemBreak (layout : Layout) (level : Nat) :
    scan (itemBreak layout level) = .outside := by
  obtain ⟨spacing, hspacing, heq⟩ := exists_itemBreak_eq layout level
  have hcomma : scan [CodePoint.comma] = .outside := rfl
  rw [heq, ← List.singleton_append, scan_append_of_outside hcomma, scan_isSpacing hspacing]

/-- What reading parts between brackets tells of each is told by reading them all. -/
theorem tells_enclosed {α : Type} {R : α → Text → Prop} {P : α → Prop} {opening closing : CodePoint}
    {a : α} {as : List α} {first : Text} {others : List Text} (hopening : IsPlain opening)
    (hclosing : IsPlain closing) (h : List.Forall₂ R (a :: as) (first :: others))
    (hP : ∀ a' ∈ a :: as, ∀ t, R a' t → Tells t (P a')) :
    Tells (enclosed layout level opening closing first others) (∀ a' ∈ a :: as, P a') := by
  obtain ⟨hfirst, hothers⟩ := List.forall₂_cons.mp h
  rw [List.forall_mem_cons] at hP
  have hrest : Tells (others.flatMap (itemBreak layout (level + 1) ++ ·)) (∀ a' ∈ as, P a') := by
    clear h
    induction hothers with
    | nil => exact (tells_true rfl).congr (by simp)
    | cons hab _ ih =>
      rw [List.forall_mem_cons] at hP
      rw [List.flatMap_cons, List.forall_mem_cons]
      have hbreak := tells_true (scan_itemBreak layout (level + 1))
      exact ((hbreak.append (hP.2.1 _ hab)).congr (by simp)).append (ih ⟨hP.1, hP.2.2⟩)
  have hopen : scan (opening :: lineBreak layout (level + 1)) = .outside := by
    have hscan : scan [opening] = .outside := scan_of_isPlain (by simpa using hopening)
    rw [← List.singleton_append, scan_append_of_outside hscan,
      scan_isSpacing (isSpacing_lineBreak _ _)]
  have hclose : scan (lineBreak layout level ++ [closing]) = .outside := by
    rw [scan_append_of_outside (scan_isSpacing (isSpacing_lineBreak _ _))]
    exact scan_of_isPlain (by simpa using hclosing)
  have htells := ((hP.1 _ hfirst).append hrest).within hopen hclose
  rw [List.forall_mem_cons]
  simpa [enclosed] using htells

theorem tells_written (x : Float) :
    Tells (written numberFormat x) (Binary.isFinite x = true) := by
  refine ⟨fun h ↦ scan_isNumber (isNumber_written h), fun h ↦ ?_⟩
  cases hx : Binary.ofFloat x with
  | nan =>
    rw [written, hx]
    rfl
  | infinite negative =>
    rw [written, hx]
    cases negative <;> rfl
  | finite negative m e =>
    rw [Binary.isFinite, hx] at h
    exact absurd rfl h

theorem tells_of_isFinite {j : Json} {t : Text} (hj : j.IsFinite) (h : Prints layout level j t) :
    Tells t j.IsFinite :=
  (tells_true (scan_isValue (isValue_of_prints hj h))).congr (iff_of_true trivial hj)

/-- Reading the words of a value tells whether its doubles are finite. -/
theorem tells_of_prints {j : Json} {t : Text} (h : Prints layout level j t) :
    Tells t j.IsFinite := by
  induction j using induction generalizing level t with
  | float x =>
    cases h
    exact (tells_written x).congr isFinite_float.symm
  | list items ih =>
    rw [isFinite_list]
    cases items with
    | nil =>
      cases h
      exact (tells_true rfl).congr (by simp)
    | cons item items =>
      obtain ⟨first, others, hparts, rfl⟩ := printAt_list_eq_ok h
      exact tells_enclosed (by decide) (by decide) hparts fun j hmem u hu ↦ ih j hmem hu
  | object members ih =>
    rw [isFinite_object]
    cases members with
    | nil =>
      cases h
      exact (tells_true rfl).congr (by simp)
    | cons m members =>
      obtain ⟨first, others, hparts, rfl⟩ := printAt_object_eq_ok h
      refine tells_enclosed (by decide) (by decide) hparts ?_
      rintro m hmem u ⟨v, hv, rfl⟩
      have hname : scan (stringText m.1 ++ [CodePoint.colon, CodePoint.space]) = .outside := by
        rw [scan_append_of_outside (scan_isString (isString_stringText m.1))]
        rfl
      exact ((tells_true hname).append (ih m hmem hv)).congr (by simp)
  | null | bool | int | text => exact tells_of_isFinite (isFinite_of_no_floats rfl) h

theorem scan_isText {t : Text} (h : IsText t) : scan t = .outside := by
  obtain ⟨p, hp, rfl⟩ := h
  exact scan_padded (scan_isValue hp)

/-- The words of a value are a text of JSON iff its doubles are finite. -/
theorem isText_iff_of_print {j : Json} {t : Text} (h : j.print layout = .ok t) :
    IsText t ↔ j.IsFinite := by
  constructor
  · intro ht
    by_contra hfloats
    -- reading the words of such a value ends astray, reading a text of the grammar never does
    have hstray := (tells_of_prints h).stray hfloats
    rw [scan_isText ht] at hstray
    cases hstray
  · intro hfloats
    exact isText_of_isValue (isValue_of_prints hfloats h)

end Converse

end MessageExtraction.Json
