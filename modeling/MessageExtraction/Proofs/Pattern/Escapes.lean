import MessageExtraction.Proofs.Pattern.Scan

namespace MessageExtraction.Pattern

/-- Whether each backslash of a text stands right before a number sign. -/
def hasPairedBackslashes : Text → Bool
  | [] => true
  | c :: rest =>
    (c != CodePoint.backslash || rest.head? == some CodePoint.hash) && hasPairedBackslashes rest

/-- What may follow a text: a brace, or the end. -/
def EndsText (t : Text) : Prop := Stops (fun c ↦ !isBrace c) t

theorem endsText_openBrace (t : Text) : EndsText (CodePoint.openBrace :: t) :=
  stops_cons.mpr (by decide)

theorem endsText_closeBrace (t : Text) : EndsText (CodePoint.closeBrace :: t) :=
  stops_cons.mpr (by decide)

theorem not_isBrace {c : CodePoint} :
    isBrace c = false ↔ c ≠ CodePoint.openBrace ∧ c ≠ CodePoint.closeBrace := by
  simp [isBrace]

theorem readText_of_endsText {t : Text} (h : EndsText t) : readText t = .ok ([], t) := by
  cases t with
  | nil => rfl
  | cons c t =>
    have hc : isBrace c = true := by simpa [EndsText] using h
    obtain rfl | rfl : c = CodePoint.openBrace ∨ c = CodePoint.closeBrace := by
      simpa [isBrace] using hc
    · rfl
    · rfl

theorem readText_plain {c : CodePoint} (hc : isBrace c = false) (hb : c ≠ CodePoint.backslash)
    (t : Text) : readText (c :: t) = (do
      let (s, rest) ← readText t
      return (c :: s, rest)) := by
  obtain ⟨ho, hcl⟩ := not_isBrace.mp hc
  rw [readText]
  · exact ho
  · exact hcl
  · exact hb

theorem printText_plain {c : CodePoint} (hc : isBrace c = false) (hb : c ≠ CodePoint.backslash)
    (t : Text) : printText (c :: t) = c :: printText t := by
  obtain ⟨ho, hcl⟩ := not_isBrace.mp hc
  rw [printText, if_neg (by simp [ho, hcl, hb])]
  rintro u rfl
  exact absurd rfl hb

theorem printText_brace {c : CodePoint} (hc : isBrace c = true) (t : Text) :
    printText (c :: t) = CodePoint.backslash :: c :: printText t := by
  obtain rfl | rfl : c = CodePoint.openBrace ∨ c = CodePoint.closeBrace := by
    simpa [isBrace] using hc
  · rfl
  · rfl

theorem readText_brace {c : CodePoint} (hc : isBrace c = true) (t : Text) :
    readText (CodePoint.backslash :: c :: t) = (do
      let (s, rest) ← readText t
      return (c :: s, rest)) := by
  obtain rfl | rfl : c = CodePoint.openBrace ∨ c = CodePoint.closeBrace := by
    simpa [isBrace] using hc
  · rw [readText]
  · rw [readText]

/-- A backslash that is printed before no number sign is doubled. -/
theorem printText_lone {t : Text} (h : t.head? ≠ some CodePoint.hash) :
    printText (CodePoint.backslash :: t) =
      CodePoint.backslash :: CodePoint.backslash :: printText t := by
  rw [printText, if_pos (by simp)]
  rintro u - rfl
  exact h rfl

/-- Two backslashes are read only before a number sign. -/
theorem readText_doubled {t : Text} (h : t.head? ≠ some CodePoint.hash) :
    readText (CodePoint.backslash :: CodePoint.backslash :: t) =
      .error (.expected .escape (CodePoint.backslash :: CodePoint.backslash :: t)) := by
  cases t with
  | nil => rw [readText] <;> simp [CodePoint.backslash]
  | cons c t =>
    have hc : c ≠ CodePoint.hash := by simpa using h
    rw [readText] <;> simp [CodePoint.backslash, hc]

/-- Printed text begins with its own first character, no brace, or with a backslash. -/
theorem printText_cons (c : CodePoint) (t : Text) :
    (isBrace c = false ∧ ∃ u, printText (c :: t) = c :: u) ∨
      ∃ u, printText (c :: t) = CodePoint.backslash :: u := by
  by_cases hb : c = CodePoint.backslash
  · subst hb
    by_cases ht : t.head? = some CodePoint.hash
    · obtain ⟨u, rfl⟩ := List.head?_eq_some_iff.mp ht
      exact .inr ⟨_, rfl⟩
    · exact .inr ⟨_, printText_lone ht⟩
  · cases hc : isBrace c with
    | true => exact .inr ⟨_, printText_brace hc t⟩
    | false => exact .inl ⟨rfl, _, printText_plain hc hb t⟩

theorem not_endsText_printText {t : Text} (h : t ≠ []) (rest : Text) :
    ¬EndsText (printText t ++ rest) := by
  cases t with
  | nil => exact absurd rfl h
  | cons c t =>
    rw [EndsText]
    obtain ⟨hc, u, hu⟩ | ⟨u, hu⟩ := printText_cons c t
    · simp [hu, hc]
    · rw [hu, List.cons_append, stops_cons]
      decide

theorem stops_spacing_printText {c : CodePoint} (h : isSpacing c = false) (t rest : Text) :
    Stops isSpacing (printText (c :: t) ++ rest) := by
  obtain ⟨-, u, hu⟩ | ⟨u, hu⟩ := printText_cons c t
  · rw [hu]
    exact stops_cons.mpr h
  · rw [hu]
    exact stops_cons.mpr (by decide)

theorem head?_printText_ne {t rest : Text} (h : t.head? ≠ some CodePoint.hash)
    (hr : EndsText rest) : (printText t ++ rest).head? ≠ some CodePoint.hash := by
  cases t with
  | nil =>
    intro hh
    obtain ⟨u, rfl⟩ := List.head?_eq_some_iff.mp (show rest.head? = _ from hh)
    exact absurd (stops_cons.mp hr) (by decide)
  | cons c t =>
    obtain ⟨-, u, hu⟩ | ⟨u, hu⟩ := printText_cons c t
    · simpa [hu] using h
    · rw [hu, List.cons_append, List.head?_cons]
      decide

/-- Printed text is read back if each backslash in it is before a number sign. -/
theorem readText_printText {t rest : Text} (ht : hasPairedBackslashes t = true)
    (hr : EndsText rest) : readText (printText t ++ rest) = .ok (t, rest) := by
  induction t using printText.induct with
  | case1 => exact readText_of_endsText hr
  | case2 t ih =>
    have ht : hasPairedBackslashes t = true := by
      simpa [hasPairedBackslashes, CodePoint.backslash] using ht
    rw [printText, List.cons_append, List.cons_append, readText, ih ht]
    rfl
  | case3 c t hne hc ih =>
    obtain ⟨hpair, ht⟩ := Bool.and_eq_true_iff.mp ht
    have hbrace : isBrace c = true := by
      rcases hc with rfl | rfl | rfl
      · rfl
      · rfl
      · obtain ⟨u, rfl⟩ := List.head?_eq_some_iff.mp (show t.head? = some CodePoint.hash by
          simpa using hpair)
        exact absurd rfl (hne u rfl)
    rw [printText_brace hbrace, List.cons_append, List.cons_append, readText_brace hbrace, ih ht]
    rfl
  | case4 c t hne hc ih =>
    obtain ⟨-, ht⟩ := Bool.and_eq_true_iff.mp ht
    have hb : c ≠ CodePoint.backslash := fun h ↦ hc (.inr (.inr h))
    have hbrace : isBrace c = false := not_isBrace.mpr ⟨fun h ↦ hc (.inl h), fun h ↦ hc (.inr (.inl h))⟩
    rw [printText_plain hbrace hb, List.cons_append, readText_plain hbrace hb, ih ht]
    rfl

/-- Printed text that can be read at all has each backslash before a number sign. -/
theorem hasPairedBackslashes_of_readText {t rest s r : Text} (hr : EndsText rest)
    (h : readText (printText t ++ rest) = .ok (s, r)) : hasPairedBackslashes t = true := by
  induction t using printText.induct generalizing s r with
  | case1 => rfl
  | case2 t ih =>
    rw [printText, List.cons_append, List.cons_append, readText] at h
    obtain ⟨⟨s', r'⟩, hs, -⟩ := bind_eq_ok.mp h
    simpa [hasPairedBackslashes, CodePoint.backslash] using ih hs
  | case3 c t hne hc ih =>
    by_cases hb : c = CodePoint.backslash
    · subst hb
      have hhead : t.head? ≠ some CodePoint.hash := by
        intro hh
        obtain ⟨u, rfl⟩ := List.head?_eq_some_iff.mp hh
        exact hne u rfl rfl
      rw [printText_lone hhead, List.cons_append, List.cons_append,
        readText_doubled (head?_printText_ne hhead hr)] at h
      simp at h
    · have hbrace : isBrace c = true := by
        rcases hc with rfl | rfl | rfl
        · rfl
        · rfl
        · exact absurd rfl hb
      rw [printText_brace hbrace, List.cons_append, List.cons_append, readText_brace hbrace] at h
      obtain ⟨⟨s', r'⟩, hs, -⟩ := bind_eq_ok.mp h
      simpa [hasPairedBackslashes, hb] using ih hs
  | case4 c t hne hc ih =>
    have hb : c ≠ CodePoint.backslash := fun h ↦ hc (.inr (.inr h))
    have hbrace : isBrace c = false := not_isBrace.mpr ⟨fun h ↦ hc (.inl h), fun h ↦ hc (.inr (.inl h))⟩
    rw [printText_plain hbrace hb, List.cons_append, readText_plain hbrace hb] at h
    obtain ⟨⟨s', r'⟩, hs, -⟩ := bind_eq_ok.mp h
    simpa [hasPairedBackslashes, hb] using ih hs

/-- Reading text goes on up to a brace or the end, and takes nothing only if it stands there. -/
theorem endsText_of_readText {t s rest : Text} (h : readText t = .ok (s, rest)) :
    EndsText rest ∧ (s = [] → EndsText t) := by
  fun_induction readText t generalizing s with
  | case1 =>
    obtain ⟨-, rfl⟩ : [] = s ∧ [] = rest := by simpa using h
    exact ⟨stops_nil, fun _ ↦ stops_nil⟩
  | case2 t =>
    obtain ⟨-, rfl⟩ : [] = s ∧ _ = rest := by simpa using h
    exact ⟨endsText_openBrace t, fun _ ↦ endsText_openBrace t⟩
  | case3 t =>
    obtain ⟨-, rfl⟩ : [] = s ∧ _ = rest := by simpa using h
    exact ⟨endsText_closeBrace t, fun _ ↦ endsText_closeBrace t⟩
  | case4 t ih | case5 t ih | case6 t ih | case7 t ih =>
    obtain ⟨⟨s', r⟩, hs, h⟩ := bind_eq_ok.mp h
    obtain ⟨rfl, rfl⟩ : _ = s ∧ r = rest := by simpa [pure, Except.pure] using h
    exact ⟨(ih hs).1, by simp⟩
  | case8 a b c d t n hn ih =>
    obtain ⟨⟨s', r⟩, hs, h⟩ := bind_eq_ok.mp h
    obtain ⟨rfl, rfl⟩ : _ = s ∧ r = rest := by simpa [pure, Except.pure] using h
    exact ⟨(ih hs).1, by simp⟩
  | case9 | case10 => simp at h
  | case11 c t ho hc hb ih =>
    obtain ⟨⟨s', r⟩, hs, h⟩ := bind_eq_ok.mp h
    obtain ⟨rfl, rfl⟩ : _ = s ∧ r = rest := by simpa [pure, Except.pure] using h
    exact ⟨(ih hs).1, by simp⟩

end MessageExtraction.Pattern
