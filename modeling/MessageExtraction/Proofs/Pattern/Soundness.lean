import MessageExtraction.Proofs.Pattern.Grammar

/-!
What is read can be derived: each reader takes a text of its part of the grammar.
-/

namespace MessageExtraction.Pattern

open Text

variable {t u v rest name selector : Text}

theorem textUnits_cons {s : Text} (hu : TextUnit u v)
    (ih : ∀ {s}, readText t = .ok (s, rest) → ∃ w, TextUnits w s ∧ t = w ++ rest)
    (h : (do
      let (s, r) ← readText t
      return (v ++ s, r)) = Except.ok (s, rest)) :
    ∃ w, TextUnits w s ∧ u ++ t = w ++ rest := by
  obtain ⟨⟨s', r⟩, hs, h⟩ := bind_eq_ok.mp h
  obtain ⟨rfl, rfl⟩ : v ++ s' = s ∧ r = rest := by simpa [pure, Except.pure] using h
  obtain ⟨w, hw, rfl⟩ := ih hs
  exact ⟨u ++ w, .cons hu hw, by simp⟩

theorem textUnits_of_readText {s : Text} (h : readText t = .ok (s, rest)) :
    ∃ w, TextUnits w s ∧ t = w ++ rest := by
  fun_induction readText t generalizing s with
  | case1 =>
    obtain ⟨rfl, rfl⟩ : [] = s ∧ [] = rest := by simpa using h
    exact ⟨[], .nil, rfl⟩
  | case2 t | case3 t =>
    obtain ⟨rfl, rfl⟩ : [] = s ∧ _ = rest := by simpa using h
    exact ⟨[], .nil, rfl⟩
  | case4 t ih => exact textUnits_cons (.brace (c := CodePoint.openBrace) rfl) ih h
  | case5 t ih => exact textUnits_cons (.brace (c := CodePoint.closeBrace) rfl) ih h
  | case6 t ih => exact textUnits_cons .hash ih h
  | case7 t ih => exact textUnits_cons .doubled ih h
  | case8 a b c d t n hn ih =>
    have hunit : TextUnit (CodePoint.backslash :: CodePoint.letterU :: [a, b, c, d]) [n] :=
      .codePoint rfl hn
    exact textUnits_cons hunit ih h
  | case9 | case10 => simp at h
  | case11 c t ho hc hb ih => exact textUnits_cons (.plain (not_isBrace.mpr ⟨ho, hc⟩) hb) ih h

theorem name_of_readName (h : readName t = .ok (name, rest)) :
    ∃ w, Name w name ∧ t = w ++ rest := by
  rw [readName] at h
  split at h
  · obtain ⟨⟨n, r⟩, hn, h⟩ := bind_eq_ok.mp h
    obtain ⟨rfl, rfl⟩ : ofNat n = name ∧ r = rest := by simpa [pure, Except.pure] using h
    obtain ⟨w, hw, -, rfl⟩ := readNumber_eq_ok_iff_spells.mp hn
    exact ⟨w, .number hw, rfl⟩
  · rename_i hd
    obtain ⟨hne, hw, -, rfl⟩ := readRun_eq_ok.mp h
    refine ⟨name, .word ⟨hne, hw⟩ ?_, rfl⟩
    cases name with
    | nil => exact stops_nil
    | cons c u => simpa using hd

theorem selector_of_readSelector (h : readSelector t = .ok (selector, rest)) :
    ∃ w, Selector w selector ∧ t = w ++ rest := by
  unfold readSelector at h
  split at h
  · obtain ⟨⟨n, r⟩, hn, h⟩ := bind_eq_ok.mp h
    obtain ⟨rfl, rfl⟩ : CodePoint.equals :: ofNat n = selector ∧ r = rest := by
      simpa [pure, Except.pure] using h
    obtain ⟨w, hw, -, rfl⟩ := readNumber_eq_ok_iff_spells.mp hn
    exact ⟨CodePoint.equals :: w, .number hw, rfl⟩
  · obtain ⟨hne, hw, -, rfl⟩ := readRun_eq_ok.mp h
    exact ⟨selector, .word ⟨hne, hw⟩, rfl⟩

theorem readHead_cases {head : Head} (h : readHead t = .ok (head, rest)) :
    ∃ v name, Padded (Name · name) v ∧
      ((∃ u, t = v ++ CodePoint.comma :: u ∧ readFormat name (skipSpacing u) = .ok (head, rest)) ∨
        (t = v ++ rest ∧ head = .whole (.argument name))) := by
  rw [readHead] at h
  obtain ⟨⟨name, r⟩, hn, h⟩ := bind_eq_ok.mp h
  obtain ⟨a, ha, ht⟩ := exists_spacing t
  obtain ⟨w, hw, hskip⟩ := name_of_readName hn
  obtain ⟨b, hb, hr⟩ := exists_spacing r
  refine ⟨a ++ (w ++ b), name, ⟨a, w, b, ha, hw, hb, rfl⟩, ?_⟩
  have htext : t = a ++ (w ++ b) ++ skipSpacing r := by
    rw [ht, hskip]
    conv_lhs => rw [hr]
    simp
  dsimp only at h
  split at h
  · rename_i u hu
    rw [hu] at htext
    exact .inl ⟨u, htext, h⟩
  · obtain ⟨rfl, rfl⟩ : .whole (.argument name) = head ∧ skipSpacing r = rest := by
      simpa [pure, Except.pure] using h
    exact .inr ⟨htext, rfl⟩

theorem SimpleKind.name_of_ofName? {kind : SimpleKind} (h : SimpleKind.ofName? w = some kind) :
    w = kind.name := by
  have hname := List.find?_some (p := fun k ↦ SimpleKind.name k == w) h
  exact (beq_iff_eq.mp hname).symm

theorem ChoiceKind.name_of_ofName? {kind : ChoiceKind} (h : ChoiceKind.ofName? w = some kind) :
    w = kind.name := by
  have hname := List.find?_some (p := fun k ↦ ChoiceKind.name k == w) h
  exact (beq_iff_eq.mp hname).symm

/-- A format is read whole, with the spacing behind its name, or up to the options of a choice. -/
theorem readFormat_cases {head : Head} (h : readFormat name t = .ok (head, rest)) :
    (∃ kind style v a, head = .whole (.formatted name kind style) ∧ SimpleFormat kind v style ∧
      IsSpacing a ∧ t = v ++ (a ++ rest)) ∨
    (∃ kind offset u x, head = .opened name kind offset ∧ IsSpacing u ∧
      t = kind.name ++ (u ++ CodePoint.comma :: x) ∧
      readOffset kind (skipSpacing x) = .ok (offset, rest)) := by
  simp only [readFormat] at h
  obtain ⟨a, ha, hafter⟩ := exists_spacing (t.dropWhile isWordPoint)
  have ht : t = t.takeWhile isWordPoint ++ (a ++ skipSpacing (t.dropWhile isWordPoint)) := by
    rw [← hafter, List.takeWhile_append_dropWhile]
  split at h
  · rename_i kind hkind
    obtain ⟨⟨style, r⟩, hs, h⟩ := bind_eq_ok.mp h
    obtain ⟨rfl, rfl⟩ : _ = head ∧ r = rest := by simpa [pure, Except.pure] using h
    rw [SimpleKind.name_of_ofName? hkind] at ht
    unfold readStyle at hs
    split at hs
    · rename_i x hx
      obtain ⟨⟨style, r'⟩, hstyle, hs⟩ := bind_eq_ok.mp hs
      obtain ⟨rfl, rfl⟩ : some style = _ ∧ r' = r := by simpa [pure, Except.pure] using hs
      obtain ⟨hne, hall, -, hskip⟩ := readRun_eq_ok.mp hstyle
      obtain ⟨b, hb, hspaced⟩ := exists_spacing x
      refine .inl ⟨kind, some style, _, [], rfl, .styled ha hb ⟨hne, hall⟩, isSpacing_nil, ?_⟩
      rw [ht, hx, hspaced, hskip]
      simp
    · obtain ⟨rfl, rfl⟩ : none = style ∧ skipSpacing (t.dropWhile isWordPoint) = r := by
        simpa using hs
      exact .inl ⟨kind, none, kind.name, a, rfl, .plain, ha, ht⟩
  · rename_i kind _ hkind
    obtain ⟨x, hx, h⟩ := bind_eq_ok.mp h
    obtain ⟨⟨offset, r⟩, ho, h⟩ := bind_eq_ok.mp h
    obtain ⟨rfl, rfl⟩ : _ = head ∧ r = rest := by simpa [pure, Except.pure] using h
    rw [ChoiceKind.name_of_ofName? hkind, expect_eq_ok.mp hx] at ht
    exact .inr ⟨kind, offset, a, x, rfl, ha, ht, ho⟩
  · simp at h

theorem readOffset_cases {kind : ChoiceKind} {offset : Nat}
    (h : readOffset kind t = .ok (offset, rest)) :
    (offset = 0 ∧ rest = t ∧ (kind.takesOffset = true → ¬offsetWord <+: t)) ∨
    (kind.takesOffset = true ∧ ∃ a b digits, IsSpacing a ∧ IsSpacing b ∧ Spells digits offset ∧
      Stops isAnyDigit rest ∧
      t = offsetWord ++ (a ++ CodePoint.colon :: (b ++ (digits ++ rest)))) := by
  rw [readOffset] at h
  split at h
  · rename_i hk
    split at h
    · rename_i x hx
      obtain ⟨y, hy, h⟩ := bind_eq_ok.mp h
      obtain ⟨digits, hdigits, hstops, hskip⟩ := readNumber_eq_ok_iff_spells.mp h
      obtain ⟨a, ha, hxa⟩ := exists_spacing x
      obtain ⟨b, hb, hyb⟩ := exists_spacing y
      refine .inr ⟨hk, a, b, digits, ha, hb, hdigits, hstops, ?_⟩
      rw [dropBeginning?_eq_some.mp hx, hxa, expect_eq_ok.mp hy, hyb, hskip]
      rfl
    · rename_i hx
      obtain ⟨rfl, rfl⟩ : 0 = offset ∧ t = rest := by simpa using h
      refine .inl ⟨rfl, rfl, fun _ hprefix ↦ ?_⟩
      obtain ⟨z, rfl⟩ := hprefix
      rw [show dropBeginning? (ofString "offset") (offsetWord ++ z) = some z from
        dropBeginning?_eq_some.mpr rfl] at hx
      contradiction
  · rename_i hk
    obtain ⟨rfl, rfl⟩ : 0 = offset ∧ t = rest := by simpa using h
    exact .inl ⟨rfl, rfl, fun h ↦ absurd h hk⟩

theorem argument_of_whole {e : Element} (h : readHead t = .ok (.whole e, u))
    (hu : skipSpacing u = CodePoint.closeBrace :: rest) :
    ∃ w, Argument w e ∧ t = w ++ CodePoint.closeBrace :: rest := by
  obtain ⟨b, hb, hspaced⟩ := exists_spacing u
  rw [hu] at hspaced
  obtain ⟨v, name, hname, ⟨x, rfl, hf⟩ | ⟨rfl, he⟩⟩ := readHead_cases h
  · obtain ⟨kind, style, y, c, he, hy, hc, hskip⟩ | ⟨kind, offset, _, _, he, -, -, -⟩ :=
      readFormat_cases hf
    · cases he
      obtain ⟨a, ha, hx⟩ := exists_spacing x
      refine ⟨_, .simple hname ⟨a, y, c ++ b, ha, hy, hc.append hb, rfl⟩, ?_⟩
      rw [hx, hskip, hspaced]
      simp
    · cases he
  · cases he
    obtain ⟨a, w, c, ha, hw, hc, rfl⟩ := hname
    refine ⟨_, .bare ⟨a, w, c ++ b, ha, hw, hc.append hb, rfl⟩, ?_⟩
    rw [hspaced]
    simp

/-- Options behind what opens a choice make an argument of it. -/
theorem argument_of_opened {kind : ChoiceKind} {offset : Nat}
    {options : List (Text × List Element)} {w b : Text}
    (h : readHead t = .ok (.opened name kind offset, w ++ (b ++ CodePoint.closeBrace :: rest)))
    (ho : Options w options) (hb : IsSpacing b) :
    ∃ w, Argument w (.choice name kind offset options) ∧ t = w ++ CodePoint.closeBrace :: rest := by
  obtain ⟨v, name, hname, ⟨x, rfl, hf⟩ | ⟨-, he⟩⟩ := readHead_cases h
  · obtain ⟨_, _, _, _, he, -, -, -⟩ | ⟨kind, offset, d, y, he, hd, hskip, hoffset⟩ :=
      readFormat_cases hf
    · cases he
    · cases he
      obtain ⟨a, ha, hx⟩ := exists_spacing x
      have hu : Padded (· = kind.name) (a ++ (kind.name ++ d)) := ⟨a, _, d, ha, rfl, hd, rfl⟩
      obtain ⟨c, hc, hy⟩ := exists_spacing y
      obtain ⟨rfl, hrest, hfirst⟩ | ⟨hk, f, g, digits, hf, hg, hdigits, hstops, hclause⟩ :=
        readOffset_cases hoffset
      · have habsent : OffsetClause kind w options [] 0 := by
          refine .absent fun hk o hhead hprefix ↦ hfirst hk ?_
          obtain ⟨z, s, _, _, _, _, hz, hs, -, rfl, hhead'⟩ := ho.exists_selector
          cases hhead.symm.trans hhead'
          -- No spacing is left in front of the first selector.
          cases z with
          | nil =>
            rw [← hrest]
            simp only [List.nil_append, List.append_assoc]
            exact (hs.prefix_offsetWord.mpr hprefix).trans (List.prefix_append _ _)
          | cons z₀ z =>
            have hstop : Stops isSpacing (skipSpacing y) := stops_dropWhile y
            rw [← hrest, List.cons_append, List.cons_append, stops_cons,
              hz z₀ List.mem_cons_self] at hstop
            contradiction
        refine ⟨_, .choice hname hu hc habsent ho hb, ?_⟩
        rw [hx, hskip, hy, ← hrest]
        simp
      · have hdigit : Stops isAnyDigit w := by
          cases w with
          | nil => exact stops_nil
          | cons z w => exact hstops
        refine ⟨_, .choice hname hu hc (.present hk hf hg hdigits hdigit) ho hb, ?_⟩
        rw [hx, hskip, hy, hclause]
        simp
  · cases he

/-- What is read with some fuel can be derived from the text that is taken. -/
structure Sound (fuel : Nat) : Prop where
  elements : ∀ {nested t es rest}, readElements nested fuel t = .ok (es, rest) →
    ∃ w, Elements w es ∧ t = w ++ rest
  argument : ∀ {t e rest}, readArgument fuel t = .ok (e, rest) →
    ∃ w, Argument w e ∧ t = w ++ CodePoint.closeBrace :: rest
  options : ∀ {t options rest}, readOptions fuel t = .ok (options, rest) →
    ∃ w b, Options w options ∧ IsSpacing b ∧ t = w ++ (b ++ rest)

theorem Sound.choice {fuel : Nat} (ih : Sound fuel) {v w selector : Text} {pattern : List Element}
    (hs : readSelector (skipSpacing t) = .ok (selector, u))
    (hv : skipSpacing u = CodePoint.openBrace :: v)
    (hp : readElements true fuel (skipSpacing v) = .ok (pattern, CodePoint.closeBrace :: w)) :
    ∃ x, Choice x (selector, pattern) ∧ t = x ++ w := by
  obtain ⟨s, hselector, hskip⟩ := selector_of_readSelector hs
  obtain ⟨p, hpattern, hbody⟩ := ih.elements hp
  obtain ⟨a, ha, ht⟩ := exists_spacing t
  obtain ⟨b, hb, hu⟩ := exists_spacing u
  obtain ⟨c, hc, hv'⟩ := exists_spacing v
  have hstop : Stops isSpacing p := by
    have hskipped : Stops isSpacing (skipSpacing v) := stops_dropWhile v
    rw [hbody] at hskipped
    cases p with
    | nil => exact stops_nil
    | cons d p => exact hskipped
  refine ⟨_, .intro ⟨a, s, b, ha, hselector, hb, rfl⟩ hc hpattern hstop, ?_⟩
  rw [ht, hskip, hu, hv, hv', hbody]
  simp

theorem sound (fuel : Nat) : Sound fuel := by
  induction fuel with
  | zero =>
    constructor <;> intros <;> simp_all [readElements, readArgument, readOptions]
  | succ fuel ih =>
    constructor
    · intro nested t es rest h
      have hwf := ((readsWell _).elements h).1
      obtain ⟨rfl, rfl, -⟩ | ⟨u, v, e, es, rfl, rfl, he, hes⟩ | ⟨v, s, es, ht, rfl, hs, hes⟩ :=
        readElements_cases h
      · exact ⟨[], .nil, rfl⟩
      · obtain ⟨w, hw, rfl⟩ := ih.argument he
        obtain ⟨w', hw', rfl⟩ := ih.elements hes
        exact ⟨_, .argument hw hw', by simp⟩
      · obtain ⟨w, hw, rfl⟩ := textUnits_of_readText hs
        obtain ⟨w', hw', rfl⟩ := ih.elements hes
        simp only [WellFormed, WellFormedElement] at hwf
        obtain ⟨hne, hnext, -⟩ := hwf
        exact ⟨w ++ w', .text hw hne (hnext rfl) hw', by simp⟩
    · intro t e rest h
      obtain ⟨u, hh, hu⟩ | ⟨u, v, name, kind, offset, options, hh, ho, hv, rfl⟩ :=
        readArgument_cases h
      · exact argument_of_whole hh hu
      · obtain ⟨w, b, hw, hb, rfl⟩ := ih.options ho
        obtain ⟨c, hc, hspaced⟩ := exists_spacing v
        rw [hspaced, hv, ← List.append_assoc b] at hh
        exact argument_of_opened hh hw (hb.append hc)
    · intro t options rest h
      obtain ⟨u, v, w, selector, pattern, more, rfl, hs, hu, hp, hmore⟩ := readOptions_cases h
      obtain ⟨x, hx, rfl⟩ := ih.choice hs hu hp
      obtain ⟨rfl, rfl, -⟩ | hmore := hmore
      · obtain ⟨b, hb, hspaced⟩ := exists_spacing w
        exact ⟨x, b, .last hx, hb, by rw [← hspaced]⟩
      · obtain ⟨y, b, hy, hb, rfl⟩ := ih.options hmore
        exact ⟨x ++ y, b, .more hx hy, hb, by simp⟩

end MessageExtraction.Pattern
