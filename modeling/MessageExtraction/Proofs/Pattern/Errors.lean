import MessageExtraction.Proofs.Pattern.Acceptance
import MessageExtraction.Proofs.Pattern.Beginnings

/-!
Where reading fails: behind a text that has begun a message, at what the grammar does not have.
Since every beginning can be completed, all that is before the place of an error was still correct.
-/

namespace MessageExtraction.Pattern

open Text

/-- Whether a number may be what should come next. -/
def Expectation.isNumeral : Expectation → Bool
  | .number | .argumentName => true
  | _ => false

/-- As many digits as there are in front of a text, which are no number. -/
structure Unreadable (digits rest : Text) (f : Fault) : Prop where
  ne_nil : digits ≠ []
  isAnyDigit : ∀ c ∈ digits, isAnyDigit c = true
  stops : Stops Text.isAnyDigit rest
  fault : Number.decimal digits = .error f

/-- How reading fails at a text: for want of what should come there, or for digits that are no
number. -/
inductive Fails (what : Expectation) : Text → Failure → Prop
  | expected (rest : Text) : Fails what rest (.expected what rest)
  | unreadable {digits rest : Text} {f : Fault} :
      what.isNumeral = true → Unreadable digits rest f → Fails what (digits ++ rest) (.fault f)

/-- Reading fails behind a beginning. -/
def FailsBehind (Begin : Text → Expectation → Prop) (t : Text) (f : Failure) : Prop :=
  ∃ w rest what, t = w ++ rest ∧ Begin w what ∧ Fails what rest f

variable {t u v w rest name : Text} {f : Failure} {what : Expectation}
  {Begin Begin' : Text → Expectation → Prop}

theorem Fails.behind (h : Fails what rest f) (hw : Begin w what) :
    FailsBehind Begin (w ++ rest) f :=
  ⟨w, rest, what, rfl, hw, h⟩

theorem FailsBehind.append (h : FailsBehind Begin t f)
    (hv : ∀ w what, Begin w what → Begin' (v ++ w) what) : FailsBehind Begin' (v ++ t) f := by
  obtain ⟨w, rest, what, rfl, hw, hfails⟩ := h
  rw [← List.append_assoc]
  exact hfails.behind (hv w what hw)

section Readers

theorem expect_eq_error {c : CodePoint} (h : expect c t = .error f) :
    f = .expected (.character c) t := by
  cases t with
  | nil =>
    cases h
    rfl
  | cons d t =>
    rw [expect] at h
    split at h
    · cases h
    · cases h
      rfl

theorem readRun_eq_error {p : CodePoint → Bool} (h : readRun p what t = .error f) :
    f = .expected what t ∧ Stops p t := by
  rw [readRun] at h
  split at h
  · rename_i hnil
    cases h
    refine ⟨rfl, ?_⟩
    have hdrop := stops_dropWhile (p := p) t
    rwa [← List.takeWhile_append_dropWhile (p := p) (l := t), List.isEmpty_iff.mp hnil]
  · cases h

theorem readNumber_of_unreadable {digits : Text} {e : Fault} (h : Unreadable digits rest e) :
    readNumber (digits ++ rest) = .error (.fault e) := by
  have hrun : readRun isAnyDigit .number (digits ++ rest) = .ok (digits, rest) :=
    readRun_eq_ok.mpr ⟨h.ne_nil, h.isAnyDigit, h.stops, rfl⟩
  rw [readNumber, hrun, ok_bind]
  simp only [h.fault]
  rfl

/-- A number is not read where no digit is, and where there are digits that are no number. -/
theorem readNumber_eq_error (h : readNumber t = .error f) :
    (f = .expected .number t ∧ Stops isAnyDigit t) ∨
      ∃ digits rest e, t = digits ++ rest ∧ Unreadable digits rest e ∧ f = .fault e := by
  rw [readNumber, bind_eq_error] at h
  obtain h | ⟨⟨digits, rest⟩, hrun, h⟩ := h
  · exact .inl (readRun_eq_error h)
  · obtain ⟨hne, hdigits, hstop, rfl⟩ := readRun_eq_ok.mp hrun
    cases hn : Number.decimal digits with
    | ok n =>
      simp only [hn] at h
      cases h
    | error e =>
      simp only [hn] at h
      cases h
      exact .inr ⟨digits, rest, e, rfl, ⟨hne, hdigits, hstop, hn⟩, rfl⟩

theorem fails_of_readNumber (h : readNumber t = .error f) : Fails .number t f := by
  obtain ⟨rfl, -⟩ | ⟨digits, rest, e, rfl, hdigits, rfl⟩ := readNumber_eq_error h
  · exact .expected t
  · exact .unreadable rfl hdigits

theorem fails_of_readName (h : readName t = .error f) : Fails .argumentName t f := by
  rw [readName] at h
  split at h
  · rename_i hhead
    obtain h | ⟨_, _, h⟩ := bind_eq_error.mp h
    · obtain ⟨rfl, hstop⟩ | ⟨digits, rest, e, rfl, hdigits, rfl⟩ := readNumber_eq_error h
      · cases t with
        | nil => cases hhead
        | cons c t =>
          rw [stops_cons] at hstop
          rw [List.head?_cons, Option.any_some, hstop] at hhead
          cases hhead
      · exact .unreadable rfl hdigits
    · cases h
  · obtain ⟨rfl, -⟩ := readRun_eq_error h
    exact .expected t

theorem readSelector_eq_error (h : readSelector t = .error f) :
    Fails .selector t f ∨ ∃ u, t = CodePoint.equals :: u ∧ Fails .number u f := by
  unfold readSelector at h
  split at h
  · rename_i u
    obtain h | ⟨_, _, h⟩ := bind_eq_error.mp h
    · exact .inr ⟨u, rfl, fails_of_readNumber h⟩
    · cases h
  · obtain ⟨rfl, -⟩ := readRun_eq_error h
    exact .inl (.expected _)

/-- Reading text fails only where an escape goes wrong. -/
def TextBegin (w : Text) (what : Expectation) : Prop := (∃ s, TextUnits w s) ∧ what = .escape

theorem failsBehind_cons {a b : Text} (hu : TextUnit a b)
    (ih : ∀ {f}, readText t = .error f → FailsBehind TextBegin t f)
    (h : (do
      let (s, r) ← readText t
      return (b ++ s, r)) = Except.error f) : FailsBehind TextBegin (a ++ t) f := by
  obtain h | ⟨_, _, h⟩ := bind_eq_error.mp h
  · refine (ih h).append fun w what hw ↦ ?_
    obtain ⟨⟨s, hs⟩, hwhat⟩ := hw
    exact ⟨⟨_, .cons hu hs⟩, hwhat⟩
  · cases h

theorem failsBehind_of_readText (h : readText t = .error f) : FailsBehind TextBegin t f := by
  fun_induction readText t generalizing f with
  | case1 | case2 | case3 => cases h
  | case4 t ih => exact failsBehind_cons (.brace (c := CodePoint.openBrace) rfl) ih h
  | case5 t ih => exact failsBehind_cons (.brace (c := CodePoint.closeBrace) rfl) ih h
  | case6 t ih => exact failsBehind_cons .hash ih h
  | case7 t ih => exact failsBehind_cons .doubled ih h
  | case8 a b c d t n hn ih =>
    have hunit : TextUnit (CodePoint.backslash :: CodePoint.letterU :: [a, b, c, d]) [n] :=
      .codePoint rfl hn
    exact failsBehind_cons hunit ih h
  | case9 | case10 =>
    cases h
    exact ⟨[], _, .escape, rfl, ⟨⟨[], .nil⟩, rfl⟩, .expected _⟩
  | case11 c t ho hc hb ih => exact failsBehind_cons (.plain (not_isBrace.mpr ⟨ho, hc⟩) hb) ih h

theorem readStyle_eq_error (h : readStyle t = .error f) :
    ∃ u, t = CodePoint.comma :: u ∧ f = .expected .style (skipSpacing u) := by
  unfold readStyle at h
  split at h
  · rename_i u
    obtain h | ⟨_, _, h⟩ := bind_eq_error.mp h
    · exact ⟨u, rfl, (readRun_eq_error h).1⟩
    · cases h
  · cases h

/-- An offset is not read where its word is not followed by a colon and a number. -/
theorem readOffset_eq_error {kind : ChoiceKind} (h : readOffset kind t = .error f) :
    kind.takesOffset = true ∧ ∃ u, t = offsetWord ++ u ∧
      (f = .expected (.character CodePoint.colon) (skipSpacing u) ∨
        ∃ y, skipSpacing u = CodePoint.colon :: y ∧ Fails .number (skipSpacing y) f) := by
  rw [readOffset] at h
  split at h
  · rename_i hk
    split at h
    · rename_i u hu
      refine ⟨hk, u, dropBeginning?_eq_some.mp hu, ?_⟩
      obtain h | ⟨y, hy, h⟩ := bind_eq_error.mp h
      · exact .inl (expect_eq_error h)
      · exact .inr ⟨y, expect_eq_ok.mp hy, fails_of_readNumber h⟩
    · cases h
  · cases h

end Readers

section Heads

theorem failsBehind_of_readFormat {a : Text} (hv : Padded (Name · name) v) (ha : IsSpacing a)
    (h : readFormat name t = .error f) :
    FailsBehind ArgumentBegin (v ++ CodePoint.comma :: (a ++ t)) f := by
  simp only [readFormat] at h
  obtain ⟨b, hb, hafter⟩ := exists_spacing (t.dropWhile isWordPoint)
  have ht : t = t.takeWhile isWordPoint ++ (b ++ skipSpacing (t.dropWhile isWordPoint)) := by
    rw [← hafter, List.takeWhile_append_dropWhile]
  generalize skipSpacing (t.dropWhile isWordPoint) = r at h ht
  split at h
  · rename_i kind hkind
    rw [SimpleKind.name_of_ofName? hkind] at ht
    have hu : Padded (· = kind.name) (a ++ (kind.name ++ b)) := ⟨a, _, b, ha, rfl, hb, rfl⟩
    obtain hstyle | ⟨_, _, h⟩ := bind_eq_error.mp h
    · obtain ⟨x, rfl, rfl⟩ := readStyle_eq_error hstyle
      obtain ⟨c, hc, hspaced⟩ := exists_spacing x
      refine ⟨_, skipSpacing x, _, ?_, .style hv hu hc, .expected _⟩
      rw [ht]
      conv_lhs => rw [hspaced]
      simp
    · cases h
  · rename_i kind _ hkind
    rw [ChoiceKind.name_of_ofName? hkind] at ht
    have hu : Padded (· = kind.name) (a ++ (kind.name ++ b)) := ⟨a, _, b, ha, rfl, hb, rfl⟩
    obtain hcomma | ⟨x, hx, hrest⟩ := bind_eq_error.mp h
    · obtain rfl := expect_eq_error hcomma
      exact ⟨_, r, _, by rw [ht]; simp, .choice hv hu, .expected r⟩
    · obtain hoffset | ⟨_, _, h⟩ := bind_eq_error.mp hrest
      · obtain ⟨c, hc, hspaced⟩ := exists_spacing x
        have hhead := ChoiceHead.intro hv hu hc
        obtain ⟨hk, y, hy, hfails⟩ := readOffset_eq_error hoffset
        obtain ⟨d, hd, hspaced'⟩ := exists_spacing y
        rw [ht, expect_eq_ok.mp hx, hspaced, hy]
        obtain rfl | ⟨z, hz, hfails⟩ := hfails
        · refine ⟨_, skipSpacing y, _, ?_, .colon hhead hk hd, .expected _⟩
          conv_lhs => rw [hspaced']
          simp
        · obtain ⟨e, he, hspaced''⟩ := exists_spacing z
          refine ⟨_, skipSpacing z, _, ?_, .offset hhead hk hd he, hfails⟩
          rw [hspaced', hz]
          conv_lhs => rw [hspaced'']
          simp
      · cases h
  · cases h
    exact ⟨_, t, _, by simp, .format hv ha, .expected t⟩

/-- What stands between spacing is taken with the spacing on both sides. -/
theorem exists_padded {P : Text → Prop} (hw : P w) (h : skipSpacing t = w ++ rest) :
    ∃ v, Padded P v ∧ t = v ++ skipSpacing rest := by
  obtain ⟨a, ha, ht⟩ := exists_spacing t
  obtain ⟨b, hb, hrest⟩ := exists_spacing rest
  refine ⟨a ++ (w ++ b), ⟨a, w, b, ha, hw, hb, rfl⟩, ?_⟩
  rw [ht, h]
  conv_lhs => rw [hrest]
  simp

theorem failsBehind_of_readHead (h : readHead t = .error f) : FailsBehind ArgumentBegin t f := by
  rw [readHead] at h
  obtain h | ⟨⟨name, rest⟩, hname, h⟩ := bind_eq_error.mp h
  · obtain ⟨a, ha, ht⟩ := exists_spacing t
    rw [ht]
    exact (fails_of_readName h).behind (.name ha)
  · obtain ⟨w, hw, hskip⟩ := name_of_readName hname
    obtain ⟨v, hv, ht⟩ := exists_padded (P := (Name · name)) hw hskip
    dsimp only at h
    split at h
    · rename_i u hu
      obtain ⟨a, ha, hspaced⟩ := exists_spacing u
      rw [ht, hu, hspaced]
      exact failsBehind_of_readFormat hv ha h
    · cases h

/-- What is read whole is begun up to the brace that is still to come. -/
theorem begin_of_whole {e : Element} (h : readHead t = .ok (.whole e, u)) :
    ∃ w, ArgumentBegin w (.character CodePoint.closeBrace) ∧ t = w ++ skipSpacing u := by
  obtain ⟨b, hb, hspaced⟩ := exists_spacing u
  obtain ⟨v, name, hname, ⟨x, rfl, hf⟩ | ⟨rfl, -⟩⟩ := readHead_cases h
  · obtain ⟨kind, style, y, c, -, hy, hc, hskip⟩ | ⟨kind, offset, _, _, he, -, -, -⟩ :=
      readFormat_cases hf
    · obtain ⟨a, ha, hx⟩ := exists_spacing x
      refine ⟨_, .simple hname ⟨a, y, c ++ b, ha, hy, hc.append hb, rfl⟩, ?_⟩
      rw [hx, hskip]
      conv_lhs => rw [hspaced]
      simp
    · cases he
  · obtain ⟨a, w, c, ha, hw, hc, rfl⟩ := hname
    refine ⟨_, .bare ⟨a, w, c ++ b, ha, hw, hc.append hb, rfl⟩, ?_⟩
    conv_lhs => rw [hspaced]
    simp

/-- A choice is opened up to its options by all that stands in front of them. -/
theorem head_of_opened {kind : ChoiceKind} {offset : Nat}
    (h : readHead t = .ok (.opened name kind offset, u)) :
    ∃ x v, ChoiceHead kind x ∧ OffsetBegun kind u v ∧ t = x ++ (v ++ u) := by
  obtain ⟨v, name, hname, ⟨x, rfl, hf⟩ | ⟨-, he⟩⟩ := readHead_cases h
  · obtain ⟨_, _, _, _, he, -, -, -⟩ | ⟨kind, offset, d, y, he, hd, hskip, hoffset⟩ :=
      readFormat_cases hf
    · cases he
    · cases he
      obtain ⟨a, ha, hx⟩ := exists_spacing x
      obtain ⟨c, hc, hy⟩ := exists_spacing y
      have hhead := ChoiceHead.intro hname ⟨a, kind.name, d, ha, rfl, hd, rfl⟩ hc
      obtain ⟨-, hrest, hword⟩ | ⟨hk, p, q, digits, hp, hq, hdigits, hstop, hclause⟩ :=
        readOffset_cases hoffset
      · have hstop : Stops isSpacing (skipSpacing y) := stops_dropWhile y
        rw [← hrest] at hstop hword hy
        refine ⟨_, [], hhead, .absent hstop hword, ?_⟩
        rw [hx, hskip, hy]
        simp
      · refine ⟨_, _, hhead, .present hk hp hq hdigits hstop, ?_⟩
        rw [hx, hskip, hy, hclause]
        simp
  · cases he

theorem OffsetBegun.of_append {kind : ChoiceKind} (h : OffsetBegun kind (w ++ rest) v) :
    OffsetBegun kind w v := by
  have hstops {p : CodePoint → Bool} (h : Stops p (w ++ rest)) : Stops p w := by
    cases w with
    | nil => exact stops_nil
    | cons c w => exact h
  cases h with
  | absent hstop hword =>
    exact .absent (hstops hstop) fun hk hw ↦ hword hk (hw.trans (List.prefix_append w rest))
  | present hk ha hb hdigits hstop => exact .present hk ha hb hdigits (hstops hstop)

end Heads

section Elements

theorem elements_of_textUnits {s : Text} (h : TextUnits w s) : ∃ es, Elements w es := by
  cases h with
  | nil => exact ⟨[], .nil⟩
  | cons hu hus =>
    have hne {a b : Text} (h : TextUnit a b) (c : Text) : b ++ c ≠ [] := by
      cases h <;> simp
    have hes := Elements.text (.cons hu hus) (hne hu _) rfl .nil
    rw [List.append_nil] at hes
    exact ⟨_, hes⟩

theorem startsWithText_of_endsText {es : List Element} (h : Elements w es)
    (hend : EndsText (w ++ rest)) : startsWithText es = false := by
  cases h with
  | nil => rfl
  | text hu hne =>
    rw [List.append_assoc] at hend
    exact absurd hend (not_endsText_of_textUnits hu hne _)
  | argument he => exact he.isText

variable {nested : Bool}

theorem ElementsBegin.argument_append {e : Element} (he : Argument v e)
    (h : ElementsBegin nested w what) :
    ElementsBegin nested (CodePoint.openBrace :: (v ++ [CodePoint.closeBrace]) ++ w) what := by
  cases h with
  | between hw hdue => exact .between (by simpa using Elements.argument he hw) hdue
  | argument hw hu => simpa using ElementsBegin.argument (.argument he hw) hu

theorem ElementsBegin.text_append {s : Text} (hv : TextUnits v s) (hne : s ≠ [])
    (h : ElementsBegin nested w what) (hend : EndsText (w ++ rest)) :
    ElementsBegin nested (v ++ w) what := by
  cases h with
  | between hw hdue =>
    exact .between (.text hv hne (startsWithText_of_endsText hw hend) hw) hdue
  | argument hw hu =>
    rw [List.append_assoc] at hend
    rw [← List.append_assoc]
    exact .argument (.text hv hne (startsWithText_of_endsText hw hend) hw) hu

theorem closes_of_readOptions {fuel : Nat} {options : List (Text × List Element)}
    (h : readOptions fuel t = .ok (options, rest)) : ∃ x, rest = CodePoint.closeBrace :: x := by
  induction fuel generalizing t options with
  | zero => cases h
  | succ fuel ih =>
    obtain ⟨u, v, w, selector, pattern, more, -, -, -, -, ⟨-, -, hrest⟩ | hmore⟩ :=
      readOptions_cases h
    · exact hrest
    · exact ih hmore

/-- What is read with fuel for all of it fails only behind a beginning. -/
structure Located (fuel : Nat) : Prop where
  elements : ∀ {nested t f}, readElements nested fuel t = .error f → t.length < fuel →
    FailsBehind (ElementsBegin nested) t f
  argument : ∀ {t f}, readArgument fuel t = .error f → t.length < fuel →
    FailsBehind ArgumentBegin t f
  options : ∀ {t f}, readOptions fuel t = .error f → t.length < fuel →
    FailsBehind OptionsBegin t f

variable {fuel : Nat}

theorem located_elements (ih : Located fuel) (h : readElements nested (fuel + 1) t = .error f)
    (hlen : t.length < fuel + 1) : FailsBehind (ElementsBegin nested) t f := by
  by_cases hend : EndsText t
  · cases t with
    | nil =>
      cases nested with
      | false => cases h
      | true =>
        cases h
        exact ⟨[], [], _, rfl, .between .nil .closeBrace, .expected []⟩
    | cons c u =>
      have hc : isBrace c = true := by simpa [EndsText] using hend
      rw [List.length_cons] at hlen
      obtain rfl | rfl : c = CodePoint.openBrace ∨ c = CodePoint.closeBrace := by
        simpa [isBrace] using hc
      · rw [readElements_argument] at h
        obtain hargument | ⟨⟨e, v⟩, hargument, hrest⟩ := bind_eq_error.mp h
        · exact (ih.argument hargument (by omega)).append (v := [CodePoint.openBrace])
            fun w what hw ↦ .argument .nil hw
        · obtain ⟨w, hw, rfl⟩ := (sound fuel).argument hargument
          rw [List.length_append, List.length_cons] at hlen
          obtain hes | ⟨_, _, hreturn⟩ := bind_eq_error.mp hrest
          · have hfails := (ih.elements hes (by omega)).append fun _ _ ↦
              ElementsBegin.argument_append hw
            simpa using hfails
          · cases hreturn
      · cases nested with
        | true => cases h
        | false =>
          cases h
          exact ⟨[], _, _, rfl, .between .nil .openBraceOrText, .expected _⟩
  · rw [readElements_text hend] at h
    obtain htext | ⟨⟨s, v⟩, htext, hrest⟩ := bind_eq_error.mp h
    · obtain ⟨w, rest, what, rfl, ⟨⟨s, hs⟩, rfl⟩, hfails⟩ := failsBehind_of_readText htext
      obtain ⟨es, hes⟩ := elements_of_textUnits hs
      exact hfails.behind (.between hes (.escape nested))
    · obtain ⟨hend', hnil⟩ := endsText_of_readText htext
      obtain ⟨w, hw, rfl⟩ := textUnits_of_readText htext
      have hne : s ≠ [] := fun hs ↦ hend (hnil hs)
      have hpos := hw.length_pos hne
      rw [List.length_append] at hlen
      obtain hes | ⟨_, _, hreturn⟩ := bind_eq_error.mp hrest
      · obtain ⟨w', rest, what, rfl, hbegin, hfails⟩ := ih.elements hes (by omega)
        rw [← List.append_assoc]
        exact hfails.behind (hbegin.text_append hw hne hend')
      · cases hreturn

theorem ChoiceHead.length_pos {kind : ChoiceKind} {x : Text} (h : ChoiceHead kind x) :
    0 < x.length := by
  cases h
  simp

theorem Choice.length_pos {o : Text × List Element} (h : Choice w o) : 0 < w.length := by
  cases h
  simp only [List.length_append, List.length_cons]
  omega

theorem located_argument (ih : Located fuel) (h : readArgument (fuel + 1) t = .error f)
    (hlen : t.length < fuel + 1) : FailsBehind ArgumentBegin t f := by
  rw [readArgument] at h
  obtain hhead | ⟨⟨head, u⟩, hhead, hrest⟩ := bind_eq_error.mp h
  · exact failsBehind_of_readHead hhead
  cases head with
  | whole e =>
    obtain hbrace | ⟨_, _, hreturn⟩ := bind_eq_error.mp hrest
    · obtain ⟨w, hw, rfl⟩ := begin_of_whole hhead
      obtain rfl := expect_eq_error hbrace
      exact (Fails.expected _).behind hw
    · cases hreturn
  | opened name kind offset =>
    obtain ⟨x, v, hx, hv, rfl⟩ := head_of_opened hhead
    obtain hoptions | ⟨⟨options, r⟩, hoptions, hbrace⟩ := bind_eq_error.mp hrest
    · have hpos := hx.length_pos
      rw [List.length_append, List.length_append] at hlen
      obtain ⟨w, rest, what, rfl, hw, hfails⟩ := ih.options hoptions (by omega)
      have hfails := hfails.behind (ArgumentBegin.options hx hv.of_append hw)
      simpa using hfails
    · obtain ⟨y, rfl⟩ := closes_of_readOptions hoptions
      dsimp only at hbrace
      rw [skipSpacing_of_stops (stops_cons.mpr (by decide)), expect_cons] at hbrace
      cases hbrace

theorem located_options (ih : Located fuel) (h : readOptions (fuel + 1) t = .error f)
    (hlen : t.length < fuel + 1) : FailsBehind OptionsBegin t f := by
  rw [readOptions] at h
  obtain ⟨a, ha, ht⟩ := exists_spacing t
  obtain hselector | ⟨⟨selector, u⟩, hselector, hrest⟩ := bind_eq_error.mp h
  · rw [ht]
    obtain hfails | ⟨x, hx, hfails⟩ := readSelector_eq_error hselector
    · exact hfails.behind (.selector ha)
    · rw [hx, List.append_cons]
      exact hfails.behind (.number ha)
  obtain ⟨s, hs, hskip⟩ := selector_of_readSelector hselector
  obtain ⟨v, hv, ht⟩ := exists_padded (P := (Selector · selector)) hs hskip
  obtain hbrace | ⟨x, hx, hbody⟩ := bind_eq_error.mp hrest
  · rw [ht, expect_eq_error hbrace]
    exact (Fails.expected _).behind (.brace hv)
  have hopened := expect_eq_ok.mp hx
  rw [hopened] at ht
  obtain ⟨b, hb, hspaced⟩ := exists_spacing x
  obtain hpattern | ⟨⟨pattern, r⟩, hpattern, hclose⟩ := bind_eq_error.mp hbody
  · have hstop : Stops isSpacing (skipSpacing x) := stops_dropWhile x
    have hshort := congrArg List.length ht
    have hskipped := congrArg List.length hspaced
    simp only [List.length_append, List.length_cons] at hshort hskipped
    obtain ⟨w, rest, what, hw, hbegin, hfails⟩ := ih.elements hpattern (by omega)
    rw [hw] at hstop hspaced
    have hstop : Stops isSpacing w := by
      cases w with
      | nil => exact stops_nil
      | cons c w => exact hstop
    have hfails := hfails.behind (OptionsBegin.pattern hv hb hstop hbegin)
    rw [ht, hspaced]
    simpa using hfails
  · obtain ⟨y, rfl⟩ : Ends true r := ((readsWell _).elements hpattern).2.1
    dsimp only at hclose
    rw [expect_cons, ok_bind] at hclose
    split at hclose
    · cases hclose
    · obtain hmore | ⟨_, _, hreturn⟩ := bind_eq_error.mp hclose
      · obtain ⟨w, hchoice, rfl⟩ := (sound fuel).choice hselector hopened hpattern
        have hpos := hchoice.length_pos
        rw [List.length_append] at hlen
        exact (ih.options hmore (by omega)).append fun _ _ ↦ .more hchoice
      · cases hreturn

theorem located (fuel : Nat) : Located fuel := by
  induction fuel with
  | zero => constructor <;> intros <;> omega
  | succ fuel ih => exact ⟨located_elements ih, located_argument ih, located_options ih⟩

end Elements

theorem parse_eq_malformed {m : Text} {e : SyntaxError} (h : parse m = .error (.malformed e)) :
    ∃ what rest, readElements false (m.length + 1) m = .error (.expected what rest) ∧
      e = errorAt m what rest := by
  rw [parse] at h
  split at h
  · cases h
  · rename_i what rest hread
    cases h
    exact ⟨what, rest, hread, rfl⟩
  · cases h

/-- An error is reported behind a beginning of a message, at what it was expected there. -/
theorem exists_begin_of_malformed {m : Text} {e : SyntaxError}
    (h : parse m = .error (.malformed e)) :
    ∃ w rest, m = w ++ rest ∧ e = errorAt m e.expected rest ∧ e.offset = w.length ∧
      ElementsBegin false w e.expected := by
  obtain ⟨what, rest, hread, rfl⟩ := parse_eq_malformed h
  obtain ⟨w, rest', what', rfl, hw, hfails⟩ :=
    (located _).elements hread (Nat.lt_succ_self _)
  cases hfails
  refine ⟨w, rest, rfl, rfl, ?_, hw⟩
  simp [errorAt]

/-- What stands before the place of an error is the beginning of a message that is accepted. -/
theorem correct_prefix {m : Text} {e : SyntaxError} (h : parse m = .error (.malformed e)) :
    ∃ m' es, m.take e.offset <+: m' ∧ parse m' = .ok es := by
  obtain ⟨w, rest, rfl, -, hoffset, hw⟩ := exists_begin_of_malformed h
  obtain ⟨c, es, hes, -⟩ := hw.exists_elements
  refine ⟨w ++ c, es, ?_, (parse_eq_ok_iff_elements _ _).mpr hes⟩
  rw [hoffset, List.take_left]
  exact List.prefix_append w c

/-- An error inside of the second option, where the offset of a choice has no colon. -/
theorem nestedOffset_prefix :
    parse "\x7bn, select, a \x7b\\#\x7d b \x7b\x7bk, plural, offset 1" =
      .error (.malformed ⟨.character CodePoint.colon, some 0x31, 41, 1, 42⟩) ∧
    ∃ m' es, ("\x7bn, select, a \x7b\\#\x7d b \x7b\x7bk, plural, offset 1" : Text).take 41 <+: m' ∧
      parse m' = .ok es := by
  have h : parse "\x7bn, select, a \x7b\\#\x7d b \x7b\x7bk, plural, offset 1" =
      .error (.malformed ⟨.character CodePoint.colon, some 0x31, 41, 1, 42⟩) := by cbv
  exact ⟨h, correct_prefix h⟩

end MessageExtraction.Pattern
