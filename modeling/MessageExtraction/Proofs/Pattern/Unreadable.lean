import MessageExtraction.Proofs.Pattern.Errors

/-!
Digits that are no number. A message is parsed or rejected with the place of the error, unless a
number is due in it where there are digits without a decimal value, or too many of them.
-/

namespace MessageExtraction

namespace Text

theorem positional?_eq_none_iff {base : Nat} {value? : CodePoint → Option Nat} {t : Text} :
    positional? base value? t = none ↔ ∃ c ∈ t, value? c = none := by
  induction t using List.reverseRecOn with
  | nil => simp [positional?]
  | append_singleton t c ih =>
    rw [positional?_concat, Option.bind_eq_none_iff]
    cases hn : positional? base value? t with
    | none =>
      obtain ⟨d, hd, hvalue⟩ := ih.mp hn
      simp only [reduceCtorEq, false_implies, implies_true, true_iff]
      exact ⟨d, List.mem_append_left _ hd, hvalue⟩
    | some n =>
      have hbefore : ¬∃ d ∈ t, value? d = none := by
        intro h
        rw [ih.mpr h] at hn
        cases hn
      simp only [Option.some.injEq, forall_eq', Option.map_eq_none_iff, List.mem_append,
        List.mem_singleton, or_and_right, exists_or, hbefore, false_or, exists_eq_left]

theorem isBlank_decimal {c : CodePoint} {v : Nat} (h : decimalValue? c = some v) :
    v < 10 ∧ CodePoint.isBlank c = false := by
  have hall : ∀ first ∈ decimalZeros, ∀ i < 10, CodePoint.isBlank (first + i) = false := by
    decide +kernel
  obtain ⟨first, hfirst, rfl⟩ := Option.map_eq_some_iff.mp h
  have hrange := List.find?_some hfirst
  simp only [Bool.and_eq_true, decide_eq_true_eq] at hrange
  have hi : c - first < 10 := Nat.sub_lt_left_of_lt_add hrange.1 hrange.2
  have hblank := hall first (List.mem_of_find?_eq_some hfirst) (c - first) hi
  rw [Nat.add_sub_of_le hrange.1] at hblank
  exact ⟨hi, hblank⟩

end Text

namespace Number

open Text

/-- A digit of any kind is one of a number exactly if it has a decimal value. -/
theorem digitIn?_plainPoint_eq_none_iff {c : CodePoint} (h : isAnyDigit c = true) :
    digitIn? 10 (plainPoint c) = none ↔ decimalValue? c = none := by
  by_cases hc : c < 0x7F
  · have hall : ∀ c < 0x7F, isAnyDigit c = true →
        digitIn? 10 c ≠ none ∧ decimalValue? c ≠ none := by decide +kernel
    rw [plainPoint, if_pos hc]
    obtain ⟨hdigit, hvalue⟩ := hall c hc h
    exact iff_of_false hdigit hvalue
  · rw [plainPoint, if_neg hc]
    cases hv : decimalValue? c with
    | none =>
      refine iff_of_true ?_ rfl
      split <;> decide
    | some v =>
      obtain ⟨hlt, hblank⟩ := isBlank_decimal hv
      have hall : ∀ v < 10, digitIn? 10 (0x30 + v) ≠ none := by decide
      rw [if_neg (by simp [hblank])]
      exact iff_of_false (hall v hlt) (by simp)

/-- Digits are no number if one of them has no decimal value, or if there are too many. -/
theorem decimal_eq_error_iff {t : Text} (hne : t ≠ []) (h : ∀ c ∈ t, isAnyDigit c = true) :
    (∃ f, decimal t = .error f) ↔
      (∃ c ∈ t, decimalValue? c = none) ∨ digitLimit < t.length := by
  have hdigits : digits? 10 (t.map plainPoint) = none ↔ ∃ c ∈ t, decimalValue? c = none := by
    rw [digits?, if_neg (by simpa using hne), positional?_eq_none_iff]
    simp only [List.mem_map, exists_exists_and_eq_and]
    exact exists_congr fun c ↦ and_congr_right fun hc ↦ digitIn?_plainPoint_eq_none_iff (h c hc)
  rw [← hdigits, decimal]
  cases digits? 10 (t.map plainPoint) with
  | none => simp
  | some n =>
    by_cases hlong : digitLimit < t.length
    · simp [hlong]
    · simp [hlong]

end Number

namespace Pattern

open Text

/-- Whether an error is where it says, in characters, lines and columns. -/
structure SyntaxError.IsAt (e : SyntaxError) (m : Text) : Prop where
  offset : e.offset ≤ m.length
  line : e.line = (m.take e.offset).count CodePoint.lineFeed + 1
  column : ∃ lines last, m.take e.offset = lines ++ last ∧ CodePoint.lineFeed ∉ last ∧
    (lines = [] ∨ lines.getLast? = some CodePoint.lineFeed) ∧ e.column = last.length + 1

theorem exists_columnAfter (t : Text) : ∃ lines last, t = lines ++ last ∧
    CodePoint.lineFeed ∉ last ∧ (lines = [] ∨ lines.getLast? = some CodePoint.lineFeed) ∧
    columnAfter t = last.length := by
  set isWithin : CodePoint → Bool := (· != CodePoint.lineFeed)
  have hstop : Stops isWithin (t.reverse.dropWhile isWithin) := stops_dropWhile t.reverse
  refine ⟨(t.reverse.dropWhile isWithin).reverse, (t.reverse.takeWhile isWithin).reverse,
    ?_, ?_, ?_, ?_⟩
  · rw [← List.reverse_append, List.takeWhile_append_dropWhile, List.reverse_reverse]
  · intro hmem
    have hwithin := List.mem_takeWhile_imp (List.mem_reverse.mp hmem)
    simp [isWithin] at hwithin
  · rw [List.getLast?_reverse, List.reverse_eq_nil_iff]
    cases hrest : t.reverse.dropWhile isWithin with
    | nil => exact .inl rfl
    | cons c rest =>
      rw [hrest, stops_cons] at hstop
      exact .inr (by simpa [isWithin] using hstop)
  · rw [List.length_reverse]
    rfl

theorem isAt_errorAt (m : Text) (what : Expectation) (rest : Text) :
    (errorAt m what rest).IsAt m := by
  obtain ⟨lines, last, ht, hlast, hlines, hcolumn⟩ :=
    exists_columnAfter (m.take (m.length - rest.length))
  exact ⟨Nat.sub_le _ _, rfl, lines, last, ht, hlast, hlines, congrArg (· + 1) hcolumn⟩

section Readers

variable {t u v w x a rest digits selector : Text} {what : Expectation} {kind : ChoiceKind}
  {e : Fault}

theorem Unreadable.stops_spacing (h : Unreadable digits rest e) :
    Stops isSpacing (digits ++ rest) :=
  stops_spacing_of_digits h.ne_nil h.isAnyDigit rest

theorem readName_of_unreadable (h : Unreadable digits rest e) :
    readName (digits ++ rest) = .error (.fault e) := by
  have hhead : (digits ++ rest).head?.any isAnyDigit = true := by
    cases digits with
    | nil => exact absurd rfl h.ne_nil
    | cons c digits => simpa using h.isAnyDigit c List.mem_cons_self
  rw [readName, if_pos hhead, readNumber_of_unreadable h]
  rfl

theorem readOffset_of_begun (h : OffsetBegun kind u v) (ha : IsSpacing a) :
    ∃ offset, readOffset kind (skipSpacing (a ++ (v ++ u))) = .ok (offset, u) := by
  cases h with
  | absent hstop hword =>
    refine ⟨0, ?_⟩
    rw [List.nil_append, skipSpacing_append ha hstop, readOffset]
    split
    · rename_i hk
      split
      · rename_i y hy
        exact absurd ⟨y, (dropBeginning?_eq_some.mp hy).symm⟩ (hword hk)
      · rfl
    · rfl
  | @present b c digits offset hk hb hc hdigits hstop =>
    refine ⟨offset, ?_⟩
    simp only [List.append_assoc, List.cons_append]
    rw [skipSpacing_append ha (stops_spacing_offsetWord _), readOffset_of_word hk hb,
      skipSpacing_append hc (hdigits.stops_spacing u)]
    exact readNumber_eq_ok_iff_spells.mpr ⟨digits, hdigits, hstop, rfl⟩

theorem readHead_of_choiceHead (h : ChoiceHead kind x) : ∃ name a, IsSpacing a ∧
    ∀ y, readHead (x ++ y) = (do
      let (offset, rest) ← readOffset kind (skipSpacing (a ++ y))
      return (.opened name kind offset, rest)) := by
  cases h with
  | @intro t u a name ht hu ha =>
    refine ⟨name, a, ha, fun y ↦ ?_⟩
    simp only [List.append_assoc, List.cons_append]
    exact readHead_of_choice ht hu _

/-- Where a number is due among options, the first has begun with an equals sign or has its whole
selector. -/
theorem OptionsBegin.opens (h : OptionsBegin w what) (hwhat : what.isNumeral = true) :
    (∃ a, IsSpacing a ∧ w = a ++ [CodePoint.equals]) ∨
      ∃ t selector x, Padded (Selector · selector) t ∧ w = t ++ CodePoint.openBrace :: x := by
  cases h with
  | selector | brace => cases hwhat
  | number ha => exact .inl ⟨_, ha, rfl⟩
  | pattern ht => exact .inr ⟨_, _, _, ht, rfl⟩
  | more ho =>
    cases ho with
    | intro ht => exact .inr ⟨_, _, _, ht, by simp; rfl⟩

theorem OptionsBegin.skipSpacing_ne (h : OptionsBegin w what) (hwhat : what.isNumeral = true)
    (y after : Text) : skipSpacing (w ++ y) ≠ CodePoint.closeBrace :: after := by
  obtain ⟨a, ha, rfl⟩ | ⟨t, selector, x, ⟨b, s, c, hb, hs, -, rfl⟩, rfl⟩ := h.opens hwhat
  · have hequals : Stops isSpacing ([CodePoint.equals] ++ y) := stops_cons.mpr (by decide)
    rw [List.append_assoc, skipSpacing_append ha hequals]
    exact fun h ↦ absurd (List.cons.inj h).1 (by decide)
  · simp only [List.append_assoc]
    rw [skipSpacing_append hb (hs.stops_spacing _)]
    exact hs.append_ne _ _

/-- What may stand before options does so whatever follows them, once the first has begun. -/
theorem OffsetBegun.append (hv : OffsetBegun kind w v) (h : OptionsBegin w what)
    (hwhat : what.isNumeral = true) (y : Text) : OffsetBegun kind (w ++ y) v := by
  have hopens := h.opens hwhat
  have hne : w ≠ [] := by
    obtain ⟨a, -, rfl⟩ | ⟨t, selector, x, -, rfl⟩ := hopens <;> simp
  cases hv with
  | present hk ha hb hdigits hstop => exact .present hk ha hb hdigits (stops_append hne hstop y)
  | absent hstop hword =>
    refine .absent (stops_append hne hstop y) fun hk hprefix ↦ hword hk ?_
    -- the word would end before the equals sign, or within the selector
    obtain ⟨a, ha, rfl⟩ | ⟨t, selector, x, -, rfl⟩ := hopens
    · rw [List.append_assoc] at hprefix
      have hnil : offsetWord <+: [] := prefix_of_prefix_append (by decide) (by decide) ha hprefix
      exact hnil.trans List.nil_prefix
    · rw [List.append_assoc] at hprefix
      have ht := prefix_of_prefix_append (by decide) (by decide) isSpacing_nil hprefix
      exact ht.trans (List.prefix_append t _)

/-- An argument that fails behind whole elements fails all that is read with them. -/
theorem readElements_of_argument_error {nested : Bool} {es : List Element} {f : Failure}
    (h : Elements w es) (hx : ∀ fuel, x.length < fuel → readArgument fuel x = .error f) :
    ∀ fuel, (w ++ CodePoint.openBrace :: x).length < fuel →
      readElements nested fuel (w ++ CodePoint.openBrace :: x) = .error f := by
  intro fuel hlen
  induction es generalizing w fuel with
  | nil =>
    cases h
    cases fuel with
    | zero => omega
    | succ fuel =>
      rw [List.nil_append, readElements_argument, hx fuel (by simpa using hlen)]
      rfl
  | cons d es ih =>
    cases fuel with
    | zero => omega
    | succ fuel =>
      cases h with
      | @text v t rest _ hv hne hnext hrest =>
        have hpos := hv.length_pos hne
        rw [List.append_assoc, List.length_append] at hlen
        have hends : EndsText (rest ++ CodePoint.openBrace :: x) := by
          cases hrest with
          | nil => exact endsText_openBrace x
          | text => cases hnext
          | argument => exact endsText_openBrace _
        rw [List.append_assoc, readElements_text (not_endsText_of_textUnits hv hne _),
          readText_of_textUnits hv hends, ok_bind]
        dsimp only
        rw [ih hrest fuel (by omega)]
        rfl
      | @argument v rest _ _ hd hrest =>
        simp only [List.cons_append, List.append_assoc] at hlen ⊢
        simp only [List.length_cons, List.length_append] at hlen
        rw [readElements_argument, (complete fuel).argument hd (by omega), ok_bind]
        dsimp only
        rw [ih hrest fuel (by simp only [List.length_append, List.length_cons]; omega)]
        rfl

mutual

/-- Digits that are no number end the reading where a number is due. -/
theorem ElementsBegin.fault (hd : Unreadable digits rest e) {nested : Bool} {w : Text}
    {what : Expectation} : ElementsBegin nested w what → what.isNumeral = true →
    ∀ fuel, (w ++ (digits ++ rest)).length < fuel →
      readElements nested fuel (w ++ (digits ++ rest)) = .error (.fault e)
  | .between _ hdue, hwhat => by cases hdue <;> cases hwhat
  | .argument hw hv, hwhat => by
    rw [List.append_assoc, List.cons_append]
    exact readElements_of_argument_error hw (hv.fault hd hwhat)

theorem ArgumentBegin.fault (hd : Unreadable digits rest e) {v : Text} {what : Expectation} :
    ArgumentBegin v what → what.isNumeral = true →
    ∀ fuel, (v ++ (digits ++ rest)).length < fuel →
      readArgument fuel (v ++ (digits ++ rest)) = .error (.fault e)
  | .name ha, _, fuel + 1, _ => by
    rw [readArgument, readHead, skipSpacing_append ha hd.stops_spacing, readName_of_unreadable hd]
    rfl
  | .offset hx hk hb hc, _, fuel + 1, _ => by
    obtain ⟨name, a, ha, hhead⟩ := readHead_of_choiceHead hx
    simp only [List.append_assoc, List.cons_append]
    rw [readArgument, hhead, skipSpacing_append ha (stops_spacing_offsetWord _),
      readOffset_of_word hk hb, skipSpacing_append hc hd.stops_spacing, readNumber_of_unreadable hd]
    rfl
  | @ArgumentBegin.options x v w kind what hx hv hw, hwhat, fuel + 1, hlen => by
    obtain ⟨name, a, ha, hhead⟩ := readHead_of_choiceHead hx
    obtain ⟨offset, hoffset⟩ := readOffset_of_begun (hv.append hw hwhat (digits ++ rest)) ha
    have hpos := hx.length_pos
    simp only [List.append_assoc, List.length_append] at hlen
    have hoptions := hw.fault hd hwhat fuel (by simp only [List.length_append]; omega)
    simp only [List.append_assoc]
    rw [readArgument, hhead, hoffset, ok_bind]
    change (readOptions fuel (w ++ (digits ++ rest)) >>= _) = _
    rw [hoptions]
    rfl

theorem OptionsBegin.fault (hd : Unreadable digits rest e) {w : Text} {what : Expectation} :
    OptionsBegin w what → what.isNumeral = true →
    ∀ fuel, (w ++ (digits ++ rest)).length < fuel →
      readOptions fuel (w ++ (digits ++ rest)) = .error (.fault e)
  | .number ha, _, fuel + 1, _ => by
    have hequals (y : Text) : Stops isSpacing (CodePoint.equals :: y) := stops_cons.mpr (by decide)
    rw [List.append_assoc, List.singleton_append, readOptions, skipSpacing_append ha (hequals _),
      readSelector, readNumber_of_unreadable hd]
    rfl
  | @OptionsBegin.pattern t a w selector what ht ha hstop hw, hwhat, fuel + 1, hlen => by
    have hbody : Stops isSpacing (w ++ (digits ++ rest)) := by
      cases w with
      | nil => exact hd.stops_spacing
      | cons d w => exact hstop
    simp only [List.append_assoc, List.length_append, List.length_cons] at hlen
    have hpattern := hw.fault hd hwhat fuel (by simp only [List.length_append]; omega)
    simp only [List.append_assoc, List.cons_append]
    rw [readOptions_of_selector ht, skipSpacing_append ha hbody, hpattern]
    rfl
  | @OptionsBegin.more w v o what ho hv, hwhat, fuel + 1, hlen => by
    have hpos := ho.length_pos
    simp only [List.append_assoc, List.length_append] at hlen
    have hmore := hv.fault hd hwhat fuel (by simp only [List.length_append]; omega)
    rw [List.append_assoc, (complete fuel).choice ho (by omega)]
    split
    · rename_i after hafter
      exact absurd hafter (hv.skipSpacing_ne hwhat _ after)
    · rw [hmore]
      rfl

end

end Readers

/-- Whether a number is due in a message where there are digits that are none: one of them has no
decimal value, or there are too many. -/
def HasUnreadable (m : Text) : Prop :=
  ∃ w digits rest what, m = w ++ (digits ++ rest) ∧ ElementsBegin false w what ∧
    what.isNumeral = true ∧ digits ≠ [] ∧ (∀ c ∈ digits, isAnyDigit c = true) ∧
    Stops isAnyDigit rest ∧
    ((∃ c ∈ digits, decimalValue? c = none) ∨ digitLimit < digits.length)

theorem parse_eq_fault {m : Text} {e : Fault} : parse m = .error (.fault e) ↔
    readElements false (m.length + 1) m = .error (.fault e) := by
  rw [parse]
  split <;> simp_all

theorem exists_fault_iff {m : Text} :
    (∃ e, parse m = .error (.fault e)) ↔ HasUnreadable m := by
  simp only [parse_eq_fault]
  constructor
  · intro ⟨e, h⟩
    obtain ⟨w, rest, what, rfl, hw, hfails⟩ := (located _).elements h (Nat.lt_succ_self _)
    cases hfails with
    | unreadable hwhat hd =>
      exact ⟨w, _, _, what, rfl, hw, hwhat, hd.ne_nil, hd.isAnyDigit, hd.stops,
        (Number.decimal_eq_error_iff hd.ne_nil hd.isAnyDigit).mp ⟨e, hd.fault⟩⟩
  · intro ⟨w, digits, rest, what, hm, hw, hwhat, hne, hdigits, hstop, hbad⟩
    obtain ⟨e, he⟩ := (Number.decimal_eq_error_iff hne hdigits).mpr hbad
    subst hm
    exact ⟨e, hw.fault ⟨hne, hdigits, hstop, he⟩ hwhat _ (Nat.lt_succ_self _)⟩

/-- A message is parsed, or rejected with the place of the error, exactly if no number is due in it
where there are digits that are none. -/
theorem parsed_or_located_iff (m : Text) :
    ((∃ es, parse m = .ok es) ∨ ∃ e, parse m = .error (.malformed e) ∧ e.IsAt m) ↔
      ¬HasUnreadable m := by
  rw [← exists_fault_iff]
  cases h : parse m with
  | ok es => simp
  | error e =>
    cases e with
    | fault e => simp
    | malformed e =>
      obtain ⟨what, rest, -, rfl⟩ := parse_eq_malformed h
      simpa using isAt_errorAt m what rest

/-- A raised digit is no name of an argument, and no error says where it stands. -/
theorem raisedDigit_unlocated :
    ¬((∃ es, parse "\x7b\u00b2\x7d" = .ok es) ∨
      ∃ e, parse "\x7b\u00b2\x7d" = .error (.malformed e) ∧ e.IsAt "\x7b\u00b2\x7d") := by
  have h : parse "\x7b\u00b2\x7d" = .error (.fault (.notAnInteger 10 [0xB2])) := by cbv
  rw [h]
  simp

end Pattern

end MessageExtraction
