import MessageExtraction.Proofs.Pattern.Scan

namespace MessageExtraction.Pattern

open Text

/-- A number short enough to be read. -/
def IsNumeral (n : Nat) : Prop := (ofNat n).length ≤ digitLimit

/-- A word: characters that may stand in a name, at least one. -/
def IsWord (t : Text) : Prop := t ≠ [] ∧ ∀ c ∈ t, isWordPoint c = true

/-- The names that arguments have: numbers, and words that begin with no digit. -/
def IsName (t : Text) : Prop :=
  (∃ n, IsNumeral n ∧ t = ofNat n) ∨ IsWord t ∧ Stops isAnyDigit t

/-- The selectors that options have: numbers behind an equals sign, and words. -/
def IsSelector (t : Text) : Prop :=
  (∃ n, IsNumeral n ∧ t = CodePoint.equals :: ofNat n) ∨ IsWord t

def IsStyle (t : Text) : Prop := t ≠ [] ∧ ∀ c ∈ t, isStylePoint c = true

theorem stops_append {p : CodePoint → Bool} {w : Text} (hne : w ≠ []) (h : Stops p w) (t : Text) :
    Stops p (w ++ t) := by
  cases w with
  | nil => exact absurd rfl hne
  | cons c w => simpa using h

theorem IsWord.stops_spacing {t : Text} (h : IsWord t) : Stops isSpacing t := by
  intro c hc
  have hw := h.2 c (List.mem_of_mem_head? hc)
  simp only [isWordPoint, Bool.not_eq_true', Bool.or_eq_false_iff] at hw
  exact hw.1.1.1.1.1.1

theorem stops_spacing_ofNat (n : Nat) : Stops isSpacing (ofNat n) := fun c hc ↦
  forall_mem_ofNat (P := fun c ↦ isSpacing c = false) (by decide) n c (List.mem_of_mem_head? hc)

theorem IsName.ne_nil {t : Text} (h : IsName t) : t ≠ [] := by
  rcases h with ⟨n, -, rfl⟩ | h
  · exact ofNat_ne_nil n
  · exact h.1.1

theorem IsName.stops_spacing {t : Text} (h : IsName t) : Stops isSpacing t := by
  rcases h with ⟨n, -, rfl⟩ | h
  · exact stops_spacing_ofNat n
  · exact h.1.stops_spacing

theorem IsSelector.ne_nil {t : Text} (h : IsSelector t) : t ≠ [] := by
  rcases h with ⟨n, -, rfl⟩ | h
  · exact List.cons_ne_nil _ _
  · exact h.1

theorem IsSelector.stops_spacing {t : Text} (h : IsSelector t) : Stops isSpacing t := by
  rcases h with ⟨n, -, rfl⟩ | h
  · exact stops_cons.mpr rfl
  · exact h.stops_spacing

theorem IsSelector.append_ne {s : Text} (h : IsSelector s) (t u : Text) :
    s ++ t ≠ CodePoint.closeBrace :: u := by
  rcases h with ⟨n, -, rfl⟩ | ⟨hne, h⟩
  · rw [List.cons_append]
    exact fun hh ↦ absurd (List.cons_eq_cons.mp hh).1 (by decide)
  · cases s with
    | nil => exact absurd rfl hne
    | cons c s =>
      rw [List.cons_append]
      rintro ⟨⟩
      exact absurd (h _ List.mem_cons_self) (by decide)

theorem readName_append {name t : Text} (h : IsName name) (hw : Stops isWordPoint t)
    (hd : Stops isAnyDigit t) : readName (name ++ t) = .ok (name, t) := by
  rcases h with ⟨n, hn, rfl⟩ | ⟨hword, hdigit⟩
  · have hhead : (ofNat n ++ t).head?.any isAnyDigit = true := by
      cases ht : ofNat n with
      | nil => exact absurd ht (ofNat_ne_nil n)
      | cons c u => simpa using isAnyDigit_of_mem_ofNat (n := n) c (by simp [ht])
    rw [readName, if_pos hhead, readNumber_ofNat hn hd]
    rfl
  · have hhead : ¬(name ++ t).head?.any isAnyDigit = true := by
      cases name with
      | nil => exact absurd rfl hword.1
      | cons c u => simpa using hdigit
    rw [readName, if_neg hhead, readRun_eq_ok]
    exact ⟨hword.1, hword.2, hw, rfl⟩

theorem isName_of_readName {t name rest : Text} (h : readName t = .ok (name, rest)) :
    IsName name := by
  rw [readName] at h
  split at h
  · obtain ⟨⟨n, r⟩, hn, h⟩ := bind_eq_ok.mp h
    obtain ⟨rfl, -⟩ : ofNat n = name ∧ r = rest := by simpa [pure, Except.pure] using h
    exact .inl ⟨n, length_ofNat_le_of_readNumber hn, rfl⟩
  · rename_i hd
    obtain ⟨hne, hw, -, rfl⟩ := readRun_eq_ok.mp h
    refine .inr ⟨⟨hne, hw⟩, ?_⟩
    cases name with
    | nil => exact stops_nil
    | cons c u => simpa using hd

theorem readSelector_of_ne {c : CodePoint} (hc : c ≠ CodePoint.equals) (t : Text) :
    readSelector (c :: t) = readRun isWordPoint .selector (c :: t) := by
  rw [readSelector]
  rintro u ⟨⟩
  exact hc rfl

theorem readSelector_append {s t : Text} (h : IsSelector s) (hw : Stops isWordPoint t)
    (hd : Stops isAnyDigit t) : readSelector (s ++ t) = .ok (s, t) := by
  rcases h with ⟨n, hn, rfl⟩ | hword
  · rw [List.cons_append, readSelector, readNumber_ofNat hn hd]
    rfl
  · cases s with
    | nil => exact absurd rfl hword.1
    | cons c u =>
      have hc : c ≠ CodePoint.equals := by
        rintro rfl
        exact absurd (hword.2 _ List.mem_cons_self) (by decide)
      rw [List.cons_append, readSelector_of_ne hc, ← List.cons_append, readRun_eq_ok]
      exact ⟨hword.1, hword.2, hw, rfl⟩

theorem isSelector_of_readSelector {t s rest : Text} (h : readSelector t = .ok (s, rest)) :
    IsSelector s := by
  unfold readSelector at h
  split at h
  · obtain ⟨⟨n, r⟩, hn, h⟩ := bind_eq_ok.mp h
    obtain ⟨rfl, -⟩ : CodePoint.equals :: ofNat n = s ∧ r = rest := by
      simpa [pure, Except.pure] using h
    exact .inl ⟨n, length_ofNat_le_of_readNumber hn, rfl⟩
  · obtain ⟨hne, hw, -, -⟩ := readRun_eq_ok.mp h
    exact .inr ⟨hne, hw⟩

theorem readStyle_print {style : Option Text} (h : ∀ s ∈ style, IsStyle s) (t : Text) :
    readStyle (printStyle style ++ CodePoint.closeBrace :: t) =
      .ok (style, CodePoint.closeBrace :: t) := by
  cases style with
  | none => rfl
  | some s =>
    obtain ⟨hne, hs⟩ := h s rfl
    have hspacing : Stops isSpacing s := by
      intro c hc
      have hc := hs c (List.mem_of_mem_head? hc)
      simp only [isStylePoint, Bool.not_eq_true', Bool.or_eq_false_iff] at hc
      exact hc.1
    have hrun : readRun isStylePoint .style (s ++ CodePoint.closeBrace :: t) =
        .ok (s, CodePoint.closeBrace :: t) :=
      readRun_eq_ok.mpr ⟨hne, hs, stops_cons.mpr rfl, rfl⟩
    change (readRun isStylePoint .style (skipSpacing (CodePoint.space :: (s ++ _))) >>= _) = _
    rw [skipSpacing_space, skipSpacing_of_stops (stops_append hne hspacing _), hrun]
    rfl

theorem isStyle_of_readStyle {t rest : Text} {style : Option Text}
    (h : readStyle t = .ok (style, rest)) : ∀ s ∈ style, IsStyle s := by
  unfold readStyle at h
  split at h
  · obtain ⟨⟨s, r⟩, hs, h⟩ := bind_eq_ok.mp h
    obtain ⟨rfl, -⟩ : some s = style ∧ r = rest := by simpa [pure, Except.pure] using h
    obtain ⟨hne, hall, -, -⟩ := readRun_eq_ok.mp hs
    rintro s' ⟨⟩
    exact ⟨hne, hall⟩
  · obtain ⟨rfl, -⟩ : none = style ∧ _ = rest := by simpa using h
    simp

theorem SimpleKind.ofName?_name (k : SimpleKind) : SimpleKind.ofName? k.name = some k := by
  cases k <;> decide

theorem ChoiceKind.ofName?_name (k : ChoiceKind) :
    SimpleKind.ofName? k.name = none ∧ ChoiceKind.ofName? k.name = some k := by
  cases k <;> decide

theorem SimpleKind.isWordPoint_name (k : SimpleKind) : ∀ c ∈ k.name, isWordPoint c = true := by
  cases k <;> decide

theorem ChoiceKind.isWordPoint_name (k : ChoiceKind) : ∀ c ∈ k.name, isWordPoint c = true := by
  cases k <;> decide

theorem SimpleKind.stops_spacing_name (k : SimpleKind) (t : Text) :
    Stops isSpacing (k.name ++ t) := by
  cases k <;> exact stops_cons.mpr (by decide)

theorem ChoiceKind.stops_spacing_name (k : ChoiceKind) (t : Text) :
    Stops isSpacing (k.name ++ t) := by
  cases k <;> exact stops_cons.mpr (by decide)

theorem readFormat_simple (name : Text) (k : SimpleKind) {style : Option Text}
    (h : ∀ s ∈ style, IsStyle s) (t : Text) :
    readFormat name (k.name ++ (printStyle style ++ CodePoint.closeBrace :: t)) =
      .ok (.whole (.formatted name k style), CodePoint.closeBrace :: t) := by
  have hstop : ∀ p : CodePoint → Bool, p CodePoint.comma = false → p CodePoint.closeBrace = false →
      Stops p (printStyle style ++ CodePoint.closeBrace :: t) := by
    intro p hcomma hbrace
    cases style with
    | none => exact stops_cons.mpr hbrace
    | some s => exact stops_cons.mpr hcomma
  have hword := hstop isWordPoint (by decide) (by decide)
  rw [readFormat, takeWhile_append_of_stops k.isWordPoint_name hword,
    dropWhile_append_of_stops k.isWordPoint_name hword, k.ofName?_name,
    skipSpacing_of_stops (hstop isSpacing (by decide) (by decide)), readStyle_print h]
  rfl

theorem readFormat_choice (name : Text) (k : ChoiceKind) (t : Text) :
    readFormat name (k.name ++ CodePoint.comma :: t) = (do
      let (offset, rest) ← readOffset k (skipSpacing t)
      return (.opened name k offset, rest)) := by
  have hword : Stops isWordPoint (CodePoint.comma :: t) := stops_cons.mpr (by decide)
  have hspacing : Stops isSpacing (CodePoint.comma :: t) := stops_cons.mpr (by decide)
  rw [readFormat, takeWhile_append_of_stops k.isWordPoint_name hword,
    dropWhile_append_of_stops k.isWordPoint_name hword, k.ofName?_name.1, k.ofName?_name.2,
    skipSpacing_of_stops hspacing]
  rfl

theorem readHead_argument {name : Text} (h : IsName name) (t : Text) :
    readHead (name ++ CodePoint.closeBrace :: t) =
      .ok (.whole (.argument name), CodePoint.closeBrace :: t) := by
  rw [readHead, skipSpacing_of_stops (stops_append h.ne_nil h.stops_spacing _),
    readName_append h (stops_cons.mpr (by decide)) (stops_cons.mpr (by decide))]
  rfl

theorem readHead_format {name : Text} (h : IsName name) {t : Text} (ht : Stops isSpacing t) :
    readHead (name ++ (separator ++ t)) = readFormat name t := by
  have hname : readName (name ++ (separator ++ t)) = .ok (name, separator ++ t) :=
    readName_append h (stops_cons.mpr (by decide)) (stops_cons.mpr (by decide))
  rw [readHead, skipSpacing_of_stops (stops_append h.ne_nil h.stops_spacing _), hname]
  change readFormat name (skipSpacing t) = _
  rw [skipSpacing_of_stops ht]

end MessageExtraction.Pattern
