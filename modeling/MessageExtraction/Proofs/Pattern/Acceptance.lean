import MessageExtraction.Proofs.Pattern.RoundTrip
import MessageExtraction.Proofs.Pattern.Soundness

/-!
What can be derived is read: a message is a pattern by the grammar exactly if it is parsed as it.
-/

namespace MessageExtraction.Pattern

open Text

variable {t v w rest name selector : Text}

theorem readText_unit (h : TextUnit w t) (rest : Text) : readText (w ++ rest) = (do
    let (s, r) ← readText rest
    return (t ++ s, r)) := by
  cases h with
  | plain hc hb => exact readText_plain hc hb rest
  | brace hc => exact readText_brace hc rest
  | hash => exact readText.eq_6 rest
  | doubled => exact readText.eq_7 rest
  | @codePoint digits n hl hd =>
    obtain ⟨a, b, c, d, rfl⟩ : ∃ a b c d, digits = [a, b, c, d] := List.length_eq_four.mp hl
    simp only [List.cons_append, List.nil_append]
    rw [readText, hd]

theorem readText_of_textUnits (h : TextUnits w t) (hr : EndsText rest) :
    readText (w ++ rest) = .ok (t, rest) := by
  induction h with
  | nil => exact readText_of_endsText hr
  | cons hu _ ih =>
    rw [List.append_assoc, readText_unit hu, ih]
    rfl

theorem readName_of_name (h : Name w name) (hw : Stops isWordPoint rest)
    (hd : Stops isAnyDigit rest) : readName (w ++ rest) = .ok (name, rest) := by
  cases h with
  | number h =>
    have hhead : (w ++ rest).head?.any isAnyDigit = true := by
      obtain ⟨hne, hdigits, -⟩ := h
      cases w with
      | nil => exact absurd rfl hne
      | cons c w => simpa using hdigits c List.mem_cons_self
    rw [readName, if_pos hhead, readNumber_eq_ok_iff_spells.mpr ⟨_, h, hd, rfl⟩]
    rfl
  | word hword hdigit => exact readName_append (.inr ⟨hword, hdigit⟩) hw hd

theorem readSelector_of_selector (h : Selector w selector) (hw : Stops isWordPoint rest)
    (hd : Stops isAnyDigit rest) : readSelector (w ++ rest) = .ok (selector, rest) := by
  cases h with
  | number h =>
    rw [List.cons_append, readSelector, readNumber_eq_ok_iff_spells.mpr ⟨_, h, hd, rfl⟩]
    rfl
  | word h => exact readSelector_append (.inr h) hw hd

/-- The name of an argument is read up to the comma or the brace that follows it. -/
theorem readHead_of_name (h : Padded (Name · name) t) {c : CodePoint}
    (hc : c = CodePoint.comma ∨ c = CodePoint.closeBrace) (rest : Text) :
    readHead (t ++ c :: rest) =
      match c :: rest with
      | CodePoint.comma :: rest => readFormat name (skipSpacing rest)
      | rest => return (.whole (.argument name), rest) := by
  obtain ⟨a, w, b, ha, hw, hb, rfl⟩ := h
  have hstops : Stops isWordPoint (b ++ c :: rest) ∧ Stops isAnyDigit (b ++ c :: rest) := by
    obtain rfl | rfl := hc <;> exact stops_after_spacing hb (by decide) (by decide) rest
  have hspacing : Stops isSpacing (c :: rest) := by
    obtain rfl | rfl := hc <;> exact stops_cons.mpr (by decide)
  rw [List.append_assoc, List.append_assoc, readHead, skipSpacing_append ha (hw.stops_spacing _),
    readName_of_name hw hstops.1 hstops.2]
  rw [ok_bind]
  dsimp only
  rw [skipSpacing_append hb hspacing]
  obtain rfl | rfl := hc <;> rfl

theorem readFormat_of_simple {kind : SimpleKind} {style : Option Text} {d : Text}
    (h : SimpleFormat kind v style) (hd : IsSpacing d) (name rest : Text) :
    ∃ r, readFormat name (v ++ (d ++ CodePoint.closeBrace :: rest)) =
      .ok (.whole (.formatted name kind style), r) ∧
      skipSpacing r = CodePoint.closeBrace :: rest := by
  have hbrace : Stops isSpacing (CodePoint.closeBrace :: rest) := stops_cons.mpr (by decide)
  cases h with
  | plain =>
    have hstops :=
      (stops_after_spacing hd (c := CodePoint.closeBrace) (by decide) (by decide) rest).1
    refine ⟨CodePoint.closeBrace :: rest, ?_, skipSpacing_of_stops hbrace⟩
    rw [readFormat, takeWhile_append_of_stops kind.isWordPoint_name hstops,
      dropWhile_append_of_stops kind.isWordPoint_name hstops, kind.ofName?_name,
      skipSpacing_append hd hbrace]
    rfl
  | @styled a b style ha hb hs =>
    have hafter (x : Text) :=
      (stops_after_spacing ha (c := CodePoint.comma) (by decide) (by decide) x).1
    have hspacing : Stops isSpacing style := by
      intro c hc
      rw [← Bool.not_eq_true]
      intro hspace
      have hpoint := hs.2 c (List.mem_of_mem_head? hc)
      rw [isStylePoint_of_isSpacing c hspace] at hpoint
      contradiction
    have hend : Stops isStylePoint (d ++ CodePoint.closeBrace :: rest) :=
      hd.stops_append isStylePoint_of_isSpacing (stops_cons.mpr (by decide))
    refine ⟨d ++ CodePoint.closeBrace :: rest, ?_, skipSpacing_append hd hbrace⟩
    simp only [List.append_assoc, List.cons_append]
    rw [readFormat, takeWhile_append_of_stops kind.isWordPoint_name (hafter _),
      dropWhile_append_of_stops kind.isWordPoint_name (hafter _), kind.ofName?_name,
      skipSpacing_append ha (stops_cons.mpr (by decide))]
    change (readRun isStylePoint .style (skipSpacing (b ++ (style ++ _))) >>= _) >>= _ = _
    rw [skipSpacing_append hb (stops_append hs.1 hspacing _),
      readRun_eq_ok.mpr ⟨hs.1, hs.2, hend, rfl⟩]
    rfl

theorem readFormat_of_choice {a : Text} (ha : IsSpacing a) (name : Text) (kind : ChoiceKind)
    (x : Text) : readFormat name (kind.name ++ (a ++ CodePoint.comma :: x)) = (do
      let (offset, rest) ← readOffset kind (skipSpacing x)
      return (.opened name kind offset, rest)) := by
  have hstops := (stops_after_spacing ha (c := CodePoint.comma) (by decide) (by decide) x).1
  rw [readFormat, takeWhile_append_of_stops kind.isWordPoint_name hstops,
    dropWhile_append_of_stops kind.isWordPoint_name hstops, kind.ofName?_name.1,
    kind.ofName?_name.2, skipSpacing_append ha (stops_cons.mpr (by decide))]
  rfl

/-- An argument that chooses is read up to where its offset may stand. -/
theorem readHead_of_choice {t u : Text} {kind : ChoiceKind} (ht : Padded (Name · name) t)
    (hu : Padded (· = kind.name) u) (x : Text) :
    readHead (t ++ CodePoint.comma :: (u ++ CodePoint.comma :: x)) = (do
      let (offset, rest) ← readOffset kind (skipSpacing x)
      return (.opened name kind offset, rest)) := by
  obtain ⟨a, _, b, ha, rfl, hb, rfl⟩ := hu
  simp only [List.append_assoc]
  rw [readHead_of_name ht (.inl rfl)]
  change readFormat name (skipSpacing (a ++ (kind.name ++ (b ++ CodePoint.comma :: x)))) = _
  rw [skipSpacing_append ha (kind.stops_spacing_name _), readFormat_of_choice hb]

/-- Behind the word for an offset and a colon a number is read. -/
theorem readOffset_of_word {kind : ChoiceKind} {a : Text} (hk : kind.takesOffset = true)
    (ha : IsSpacing a) (t : Text) :
    readOffset kind (offsetWord ++ (a ++ CodePoint.colon :: t)) = readNumber (skipSpacing t) := by
  have hdrop : dropBeginning? (ofString "offset") (offsetWord ++ (a ++ CodePoint.colon :: t)) =
      some (a ++ CodePoint.colon :: t) := dropBeginning?_eq_some.mpr rfl
  rw [readOffset, if_pos hk, hdrop]
  change expect CodePoint.colon (skipSpacing (a ++ CodePoint.colon :: t)) >>= _ = _
  rw [skipSpacing_append ha (stops_cons.mpr (by decide)), expect_cons]
  rfl

theorem stops_spacing_offsetWord (t : Text) : Stops isSpacing (offsetWord ++ t) :=
  stops_cons.mpr (by decide)

/-- What an offset leaves are the options behind it, perhaps without the spacing before them. -/
theorem readOffset_of_clause {kind : ChoiceKind} {options : List (Text × List Element)}
    {offset : Nat} {a : Text} (h : OffsetClause kind w options v offset) (ho : Options w options)
    (ha : IsSpacing a) (z : Text) :
    ∃ r, readOffset kind (skipSpacing (a ++ (v ++ (w ++ z)))) = .ok (offset, r) ∧
      skipSpacing r = skipSpacing (w ++ z) := by
  obtain ⟨b, s, c, x, selector, es, hb, hs, hc, rfl, hhead⟩ := ho.exists_selector
  cases h with
  | absent hfirst =>
    have hskip : skipSpacing (a ++ ([] ++ (b ++ (s ++ (c ++ CodePoint.openBrace :: x)) ++ z))) =
        s ++ (c ++ CodePoint.openBrace :: (x ++ z)) := by
      simpa only [List.nil_append, List.append_assoc, List.cons_append] using
        skipSpacing_append (ha.append hb) (hs.stops_spacing (c ++ CodePoint.openBrace :: (x ++ z)))
    have hskip' : skipSpacing (b ++ (s ++ (c ++ CodePoint.openBrace :: x)) ++ z) =
        s ++ (c ++ CodePoint.openBrace :: (x ++ z)) := by
      simp only [List.append_assoc, List.cons_append]
      exact skipSpacing_append hb (hs.stops_spacing _)
    refine ⟨s ++ (c ++ CodePoint.openBrace :: (x ++ z)), ?_, ?_⟩
    · rw [hskip, readOffset]
      split
      · rename_i hk
        split
        · -- what is left would begin with the word for an offset, and so would the first selector
          rename_i y hy
          have hprefix : offsetWord <+: s ++ (c ++ CodePoint.openBrace :: (x ++ z)) :=
            ⟨y, (dropBeginning?_eq_some.mp hy).symm⟩
          have hselector := hs.prefix_offsetWord.mp
            (prefix_of_prefix_append (by decide) (by decide) hc hprefix)
          exact absurd hselector (hfirst hk (selector, es) hhead)
        · rfl
      · rfl
    · rw [hskip', skipSpacing_of_stops (hs.stops_spacing _)]
  | @present d e digits offset hk hd he hdigits hstops =>
    refine ⟨b ++ (s ++ (c ++ CodePoint.openBrace :: x)) ++ z, ?_, rfl⟩
    have hne : b ++ (s ++ (c ++ CodePoint.openBrace :: x)) ≠ [] := by simp
    simp only [List.append_assoc, List.cons_append]
    rw [skipSpacing_append ha (stops_spacing_offsetWord _), readOffset_of_word hk hd,
      skipSpacing_append he (hdigits.stops_spacing _)]
    refine readNumber_eq_ok_iff_spells.mpr ⟨digits, hdigits, ?_, rfl⟩
    simpa only [List.append_assoc, List.cons_append] using stops_append hne hstops z

/-- With fuel for all of it, a text that derives something is read as that. -/
structure Complete (fuel : Nat) : Prop where
  elements : ∀ {nested w es rest}, Elements w es → Ends nested rest → w.length < fuel →
    readElements nested fuel (w ++ rest) = .ok (es, rest)
  argument : ∀ {w e rest}, Argument w e → w.length < fuel →
    readArgument fuel (w ++ CodePoint.closeBrace :: rest) = .ok (e, rest)
  options : ∀ {w options b rest}, Options w options → IsSpacing b → w.length < fuel →
    readOptions fuel (w ++ (b ++ CodePoint.closeBrace :: rest)) =
      .ok (options, CodePoint.closeBrace :: rest)

theorem complete_elements {fuel : Nat} (ih : Complete fuel) {nested : Bool} {es : List Element}
    (h : Elements w es) (hr : Ends nested rest) (hlen : w.length < fuel + 1) :
    readElements nested (fuel + 1) (w ++ rest) = .ok (es, rest) := by
  cases h with
  | nil => exact readElements_of_ends hr fuel
  | @text w t rest' es hw hne hnext hes =>
    have hpos := hw.length_pos hne
    rw [List.length_append] at hlen
    rw [List.append_assoc, readElements_text (not_endsText_of_textUnits hw hne _),
      readText_of_textUnits hw (endsText_of_elements hes hnext hr)]
    change (readElements nested fuel (rest' ++ rest) >>= _) = _
    rw [ih.elements hes hr (by omega)]
    rfl
  | @argument w rest' e es he hes =>
    simp only [List.length_cons, List.length_append] at hlen
    rw [List.cons_append, List.append_assoc, List.cons_append, readElements_argument,
      ih.argument he (by omega)]
    change (readElements nested fuel (rest' ++ rest) >>= _) = _
    rw [ih.elements hes hr (by omega)]
    rfl

theorem complete_argument {fuel : Nat} (ih : Complete fuel) {e : Element} (h : Argument w e)
    (hlen : w.length < fuel + 1) :
    readArgument (fuel + 1) (w ++ CodePoint.closeBrace :: rest) = .ok (e, rest) := by
  have hbrace : Stops isSpacing (CodePoint.closeBrace :: rest) := stops_cons.mpr (by decide)
  cases h with
  | bare hname =>
    exact readArgument_of_whole (readHead_of_name hname (.inr rfl) rest)
      (skipSpacing_of_stops hbrace) fuel
  | @simple t u name kind style hname hu =>
    obtain ⟨a, v, b, ha, hv, hb, rfl⟩ := hu
    obtain ⟨r, hr, hskip⟩ := readFormat_of_simple hv hb name rest
    have hstops : Stops isSpacing (v ++ (b ++ CodePoint.closeBrace :: rest)) := by
      cases hv with
      | plain => exact kind.stops_spacing_name _
      | styled =>
        rw [List.append_assoc]
        exact kind.stops_spacing_name _
    refine readArgument_of_whole (u := r) ?_ hskip fuel
    rw [List.append_assoc, List.cons_append, readHead_of_name hname (.inl rfl)]
    change readFormat name (skipSpacing (a ++ (v ++ b) ++ _)) = _
    rw [List.append_assoc, List.append_assoc, skipSpacing_append ha hstops, hr]
  | @choice t u v w a b name kind offset options hname hu ha hoffset ho hb =>
    obtain ⟨r, hr, hskip⟩ := readOffset_of_clause hoffset ho ha (b ++ CodePoint.closeBrace :: rest)
    simp only [List.length_append, List.length_cons] at hlen
    have hoptions : readOptions fuel r = .ok (options, CodePoint.closeBrace :: rest) := by
      rw [← readOptions_skipSpacing, hskip, readOptions_skipSpacing]
      exact ih.options ho hb (by omega)
    refine readArgument_of_opened ?_ hoptions
    simp only [List.append_assoc, List.cons_append]
    rw [readHead_of_choice hname hu, hr]
    rfl

/-- Behind a selector and a brace the pattern of an option is read, and then the end of all options
or one more. -/
theorem readOptions_of_selector {t : Text} (ht : Padded (Selector · selector) t) (fuel : Nat)
    (x : Text) : readOptions (fuel + 1) (t ++ CodePoint.openBrace :: x) = (do
      let (pattern, rest) ← readElements true fuel (skipSpacing x)
      let rest ← expect CodePoint.closeBrace rest
      match skipSpacing rest with
      | CodePoint.closeBrace :: after =>
        return ([(selector, pattern)], CodePoint.closeBrace :: after)
      | _ => do
        let (options, rest) ← readOptions fuel rest
        return ((selector, pattern) :: options, rest)) := by
  obtain ⟨a, s, b, ha, hs, hb, rfl⟩ := ht
  have hafter :=
    stops_after_spacing hb (c := CodePoint.openBrace) (by decide) (by decide) x
  simp only [List.append_assoc]
  rw [readOptions, skipSpacing_append ha (hs.stops_spacing _),
    readSelector_of_selector hs hafter.1 hafter.2]
  change expect CodePoint.openBrace (skipSpacing (b ++ CodePoint.openBrace :: x)) >>= _ = _
  rw [skipSpacing_append hb (stops_cons.mpr (by decide)), expect_cons]
  rfl

/-- An option is read up to its closing brace, and then the end of all options or one more. -/
theorem Complete.choice {fuel : Nat} (ih : Complete fuel) {o : Text × List Element}
    (h : Choice w o) (hlen : w.length < fuel + 1) (x : Text) :
    readOptions (fuel + 1) (w ++ x) =
      match skipSpacing x with
      | CodePoint.closeBrace :: after => .ok ([o], CodePoint.closeBrace :: after)
      | _ => do
        let (options, rest) ← readOptions fuel x
        return (o :: options, rest) := by
  cases h with
  | @intro t a w selector es hs ha hes hstop =>
    simp only [List.length_append, List.length_cons, List.length_nil] at hlen
    have hpattern : Stops isSpacing (w ++ CodePoint.closeBrace :: x) := by
      cases w with
      | nil => exact stops_cons.mpr (by decide)
      | cons d w => exact hstop
    simp only [List.append_assoc, List.cons_append, List.nil_append]
    rw [readOptions_of_selector hs, skipSpacing_append ha hpattern,
      ih.elements hes (ends_closeBrace x) (by omega)]
    rfl

theorem complete_options {fuel : Nat} (ih : Complete fuel) {options : List (Text × List Element)}
    {b : Text} (h : Options w options) (hb : IsSpacing b) (hlen : w.length < fuel + 1) :
    readOptions (fuel + 1) (w ++ (b ++ CodePoint.closeBrace :: rest)) =
      .ok (options, CodePoint.closeBrace :: rest) := by
  cases h with
  | last h =>
    rw [ih.choice h hlen, skipSpacing_append hb (stops_cons.mpr (by decide))]
    rfl
  | @more w w' o os h hos =>
    have hw : 0 < w.length := by
      cases h
      simp only [List.length_append, List.length_cons]
      omega
    rw [List.length_append] at hlen
    rw [List.append_assoc, ih.choice h (by omega), ih.options hos hb (by omega)]
    split
    · -- the options that follow begin with a selector, and no selector with a brace
      rename_i after hafter
      obtain ⟨a, v, c, x, selector, es, ha, hv, -, rfl, -⟩ := hos.exists_selector
      rw [List.append_assoc, List.append_assoc,
        skipSpacing_append ha (hv.stops_spacing _)] at hafter
      exact absurd hafter (hv.append_ne _ _)
    · rfl

theorem complete (fuel : Nat) : Complete fuel := by
  induction fuel with
  | zero => constructor <;> intros <;> omega
  | succ fuel ih => exact ⟨complete_elements ih, complete_argument ih, complete_options ih⟩

/-- A message is read exactly if it is one by the grammar, and then as what the grammar makes of
it. -/
theorem parse_eq_ok_iff_elements (m : Text) (es : List Element) :
    parse m = .ok es ↔ Elements m es := by
  rw [parse_eq_ok]
  constructor
  · rintro ⟨rest, h⟩
    obtain ⟨w, hw, rfl⟩ := (sound _).elements h
    obtain rfl : rest = [] := ((readsWell _).elements h).2.1
    rwa [List.append_nil]
  · intro h
    have hread := (complete (m.length + 1)).elements h ends_nil (Nat.lt_succ_self _)
    rw [List.append_nil] at hread
    exact ⟨[], hread⟩

end MessageExtraction.Pattern
