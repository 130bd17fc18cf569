import MessageExtraction.Proofs.Pattern.ReadBack

namespace MessageExtraction.Pattern

open Text

mutual

/-- The length of what is printed for an element, its offsets left out. -/
def weightElement : Element → Nat
  | .text t => (printText t).length
  | .argument name => name.length + 2
  | .formatted name kind style =>
    name.length + kind.name.length + (printStyle style).length + 4
  | .choice name kind _ options => name.length + kind.name.length + weightOptions options + 5

def weightOptions : List (Text × List Element) → Nat
  | [] => 0
  | (selector, pattern) :: rest => selector.length + weight pattern + weightOptions rest + 4

/-- The length of a pattern's canonical form, its offsets left out. Printing and reading again can
only lower it. -/
def weight : List Element → Nat
  | [] => 0
  | e :: rest => weightElement e + weight rest

end

/-- What is left of the pattern of an option when the spacing before it is skipped. -/
def trimSpacing : List Element → List Element
  | .text t :: es => if skipSpacing t = [] then es else .text (skipSpacing t) :: es
  | es => es

theorem printText_spacing {c : CodePoint} (h : isSpacing c = true) (t : Text) :
    printText (c :: t) = c :: printText t := by
  refine printText_plain ?_ ?_ t
  · rw [not_isBrace]
    constructor <;> rintro rfl <;> exact absurd h (by decide)
  · rintro rfl
    exact absurd h (by decide)

theorem skipSpacing_cons_of_spacing {c : CodePoint} (h : isSpacing c = true) (t : Text) :
    skipSpacing (c :: t) = skipSpacing t :=
  List.dropWhile_cons_of_pos h

theorem skipSpacing_printText (t rest : Text) :
    skipSpacing (printText t ++ rest) =
      if skipSpacing t = [] then skipSpacing rest else printText (skipSpacing t) ++ rest := by
  induction t with
  | nil => rfl
  | cons c t ih =>
    cases h : isSpacing c with
    | true => rw [printText_spacing h, List.cons_append, skipSpacing_cons_of_spacing h, ih,
        skipSpacing_cons_of_spacing h]
    | false =>
      rw [skipSpacing_of_stops (stops_spacing_printText h t rest),
        skipSpacing_of_stops (stops_cons.mpr h), if_neg (List.cons_ne_nil _ _)]

theorem length_printText_skipSpacing (t : Text) :
    (printText (skipSpacing t)).length ≤ (printText t).length := by
  induction t with
  | nil => exact le_rfl
  | cons c t ih =>
    cases h : isSpacing c with
    | true =>
      rw [skipSpacing_cons_of_spacing h, printText_spacing h, List.length_cons]
      omega
    | false => rw [skipSpacing_of_stops (stops_cons.mpr h)]

theorem skipSpacing_print {es : List Element} (hwf : WellFormed es) {rest : Text}
    (hr : Ends true rest) : skipSpacing (print es ++ rest) = print (trimSpacing es) ++ rest := by
  obtain ⟨u, rfl⟩ := hr
  have hrest : Stops isSpacing (CodePoint.closeBrace :: u) := stops_cons.mpr (by decide)
  cases es with
  | nil => rfl
  | cons e es =>
    simp only [WellFormed] at hwf
    obtain ⟨-, hnext, hes⟩ := hwf
    cases e with
    | text t =>
      have hstart : startsWithSpacing es = false := by
        have hnext := hnext rfl
        cases es with
        | nil => rfl
        | cons e es => cases e <;> simp_all [startsWithText, startsWithSpacing, Element.isText]
      rw [print_append, printElement, skipSpacing_printText, trimSpacing]
      split
      · exact skipSpacing_of_stops (stops_spacing_print hes hstart hrest)
      · rw [print_append, printElement]
    | argument | formatted | choice =>
      rw [trimSpacing, print_append, printElement_eq_body rfl]
      · exact skipSpacing_of_stops (stops_cons.mpr (by decide))
      · simp

theorem wellFormed_trimSpacing {es : List Element} (h : WellFormed es) :
    WellFormed (trimSpacing es) := by
  cases es with
  | nil => exact h
  | cons e es =>
    cases e with
    | text t =>
      simp only [WellFormed, WellFormedElement] at h
      rw [trimSpacing]
      split
      · exact h.2.2
      · simpa only [WellFormed, WellFormedElement] using ⟨‹_›, h.2⟩
    | argument | formatted | choice => exact h

theorem trimSpacing_eq_self {es : List Element} (hwf : WellFormed es)
    (h : startsWithSpacing es = false) : trimSpacing es = es := by
  cases es with
  | nil => rfl
  | cons e es =>
    cases e with
    | text t =>
      cases t with
      | nil => simp [WellFormed, WellFormedElement] at hwf
      | cons c t => rw [trimSpacing, skipSpacing_of_stops (stops_cons.mpr h),
          if_neg (List.cons_ne_nil _ _)]
    | argument | formatted | choice => rfl

theorem weight_trimSpacing_lt {es : List Element} (h : startsWithSpacing es = true) :
    weight (trimSpacing es) < weight es := by
  cases es with
  | nil => simp [startsWithSpacing] at h
  | cons e es =>
    cases e with
    | text t =>
      cases t with
      | nil => simp [startsWithSpacing] at h
      | cons c t =>
        have hc : isSpacing c = true := h
        have hlen := length_printText_skipSpacing t
        rw [trimSpacing, skipSpacing_cons_of_spacing hc]
        split
        · simp only [weight, weightElement, printText_spacing hc, List.length_cons]
          omega
        · simp only [weight, weightElement, printText_spacing hc, List.length_cons]
          omega
    | argument | formatted | choice => simp [startsWithSpacing] at h

theorem skipSpacing_word_append {w : Text} (h : ∀ c ∈ w, isWordPoint c = true) (t : Text) :
    skipSpacing (w ++ CodePoint.space :: CodePoint.openBrace :: t) =
      if w = [] then CodePoint.openBrace :: t
      else w ++ CodePoint.space :: CodePoint.openBrace :: t := by
  split
  · subst w
    rfl
  · rename_i hne
    exact skipSpacing_of_stops (stops_append hne (IsWord.stops_spacing ⟨hne, h⟩) _)

/-- A selector that looks like an offset is read as one, and only what is left of it can be a
selector. -/
theorem readOffset_of_offsetWord {kind : ChoiceKind} {selector : Text} (hk : kind.takesOffset = true)
    (hs : selector.startsWith offsetWord = true) (hsel : IsSelector selector) {t rest : Text}
    {offset : Nat} (h : readOffset kind (selector ++ CodePoint.space :: CodePoint.openBrace :: t) =
      .ok (offset, rest)) :
    ∃ z, rest = z ++ CodePoint.space :: CodePoint.openBrace :: t ∧ z.length < selector.length ∧
      ∀ c ∈ z, isWordPoint c = true := by
  obtain ⟨y, rfl⟩ := List.isPrefixOf_iff_prefix.mp hs
  have hword : ∀ c ∈ offsetWord ++ y, isWordPoint c = true := by
    rcases hsel with ⟨n, -, hn⟩ | hword
    · exact absurd (List.cons_eq_cons.mp hn).1 (by decide)
    · exact hword.2
  have hy : ∀ c ∈ y, isWordPoint c = true := fun c hc ↦ hword c (List.mem_append_right _ hc)
  have hdrop : dropBeginning? offsetWord (offsetWord ++ y ++
      CodePoint.space :: CodePoint.openBrace :: t) =
      some (y ++ CodePoint.space :: CodePoint.openBrace :: t) := by
    rw [dropBeginning?_eq_some, List.append_assoc]
  rw [readOffset, if_pos hk, ← offsetWord, hdrop] at h
  obtain ⟨v, hv, hn⟩ := bind_eq_ok.mp h
  rw [expect_eq_ok, skipSpacing_word_append hy] at hv
  split at hv
  · exact absurd (List.cons_eq_cons.mp hv).1 (by decide)
  cases y with
  | nil => contradiction
  | cons c y =>
    rw [List.cons_append] at hv
    obtain ⟨-, rfl⟩ := List.cons_eq_cons.mp hv
    have hy : ∀ c ∈ y, isWordPoint c = true := fun d hd ↦ hy d (List.mem_cons_of_mem _ hd)
    obtain ⟨w, hw, -⟩ := readNumber_eq_ok.mp hn
    obtain ⟨hne, hdigits, -, hrest⟩ := readRun_eq_ok.mp hw
    rw [skipSpacing_word_append hy] at hrest
    split at hrest
    · cases w with
      | nil => exact absurd rfl hne
      | cons d w =>
        obtain ⟨rfl, -⟩ := List.cons_eq_cons.mp hrest
        exact absurd (hdigits _ List.mem_cons_self) (by decide)
    · have hspace : CodePoint.space ∉ w := fun hmem ↦ absurd (hdigits _ hmem) (by decide)
      obtain ⟨z, rfl, rfl⟩ := append_eq_append_cons hspace hrest.symm
      refine ⟨z, rfl, ?_, fun c hc ↦ hy c (List.mem_append_right _ hc)⟩
      simp only [List.length_append, List.length_cons]
      omega

theorem readOffset_printed {kind : ChoiceKind} (hk : kind.takesOffset = true) {n : Nat}
    (hn : IsNumeral n) (t : Text) :
    readOffset kind (offsetWord ++ CodePoint.colon :: (ofNat n ++ CodePoint.comma :: t)) =
      .ok (n, CodePoint.comma :: t) := by
  have hdrop : dropBeginning? offsetWord (offsetWord ++ CodePoint.colon ::
      (ofNat n ++ CodePoint.comma :: t)) =
      some (CodePoint.colon :: (ofNat n ++ CodePoint.comma :: t)) := dropBeginning?_eq_some.mpr rfl
  rw [readOffset, if_pos hk, ← offsetWord, hdrop]
  change readNumber (skipSpacing (ofNat n ++ CodePoint.comma :: t)) = _
  rw [skipSpacing_of_stops (stops_append (ofNat_ne_nil n) (stops_spacing_ofNat n) _)]
  exact readNumber_ofNat hn (stops_cons.mpr (by decide))

theorem body_choice_of_ne {offset : Nat} (h : offset ≠ 0) (name : Text) (kind : ChoiceKind)
    (options : List (Text × List Element)) (t : Text) :
    body (.choice name kind offset options) ++ t =
      name ++ (separator ++ (kind.name ++ CodePoint.comma :: CodePoint.space ::
        (offsetWord ++ CodePoint.colon :: (ofNat offset ++ CodePoint.comma ::
          (printOptions options ++ t))))) := by
  have hword : (", offset:" : Text) =
      CodePoint.comma :: CodePoint.space :: (offsetWord ++ [CodePoint.colon]) := by decide
  simp [body, printOffset, h, hword]

/-- No option begins with a character that is in no selector. -/
theorem readOptions_ne_ok {fuel : Nat} {c : CodePoint} (hs : isSpacing c = false)
    (hw : isWordPoint c = false) (he : c ≠ CodePoint.equals) (t : Text)
    (r : List (Text × List Element) × Text) : readOptions fuel (c :: t) ≠ .ok r := by
  cases fuel with
  | zero => simp [readOptions]
  | succ fuel =>
    rw [readOptions, skipSpacing_of_stops (stops_cons.mpr hs), readSelector_of_ne he,
      readRun_error_of_stops (stops_cons.mpr hw)]
    simp [bind, Except.bind]

/-- Reading again what was printed stops where it should and does not raise the weight; if it keeps
the weight, all could be read back. -/
structure Shrinks (fuel : Nat) : Prop where
  elements : ∀ {nested es rest es' rest'}, WellFormed es → Ends nested rest →
    readElements nested fuel (print es ++ rest) = .ok (es', rest') →
    rest' = rest ∧ weight es' ≤ weight es ∧
      (weight es' = weight es → ∀ e ∈ within es, e.isReadBack = true)
  argument : ∀ {e rest e' rest'}, e.isText = false → WellFormedElement e →
    readArgument fuel (body e ++ CodePoint.closeBrace :: rest) = .ok (e', rest') →
    rest' = rest ∧ weightElement e' ≤ weightElement e ∧
      (weightElement e' = weightElement e → ∀ x ∈ withinElement e, x.isReadBack = true)
  options : ∀ {options rest options' rest'}, options ≠ [] → WellFormedOptions options →
    readOptions fuel (printOptions options ++ CodePoint.closeBrace :: rest) =
      .ok (options', rest') →
    rest' = CodePoint.closeBrace :: rest ∧ weightOptions options' ≤ weightOptions options ∧
      (weightOptions options' = weightOptions options →
        (∀ o ∈ options, startsWithSpacing o.2 = false) ∧
          ∀ e ∈ withinOptions options, e.isReadBack = true)

theorem shrinks_elements {fuel : Nat} (ih : Shrinks fuel) {nested : Bool}
    {es es' : List Element} {rest rest' : Text} (hwf : WellFormed es) (hr : Ends nested rest)
    (h : readElements nested (fuel + 1) (print es ++ rest) = .ok (es', rest')) :
    rest' = rest ∧ weight es' ≤ weight es ∧
      (weight es' = weight es → ∀ e ∈ within es, e.isReadBack = true) := by
  cases es with
  | nil =>
    have h : readElements nested (fuel + 1) rest = .ok (es', rest') := h
    rw [readElements_of_ends hr] at h
    obtain ⟨rfl, rfl⟩ : [] = es' ∧ rest = rest' := by simpa using h
    exact ⟨rfl, le_rfl, by simp [within]⟩
  | cons e es =>
    simp only [WellFormed] at hwf
    obtain ⟨he, hnext, hes⟩ := hwf
    rw [print_append] at h
    rw [weight, within, List.forall_mem_append]
    cases htext : e.isText with
    | false =>
      rw [printElement_eq_body htext, readElements_argument] at h
      obtain ⟨⟨e', r⟩, ha, h⟩ := bind_eq_ok.mp h
      obtain ⟨⟨es'', r'⟩, hread, h⟩ := bind_eq_ok.mp h
      obtain ⟨rfl, rfl⟩ : e' :: es'' = es' ∧ r' = rest' := by simpa [pure, Except.pure] using h
      obtain ⟨rfl, hle, heq⟩ := ih.argument htext he ha
      obtain ⟨rfl, hle', heq'⟩ := ih.elements hes hr hread
      rw [weight]
      exact ⟨rfl, by omega, fun hw ↦ ⟨heq (by omega), heq' (by omega)⟩⟩
    | true =>
      cases e with
      | text t =>
        have hne : t ≠ [] := by simpa only [WellFormedElement] using he
        have hends := endsText_print (hnext htext) hr
        rw [printElement, readElements_text (not_endsText_printText hne _)] at h
        obtain ⟨⟨s, r⟩, hs, h⟩ := bind_eq_ok.mp h
        have hpaired := hasPairedBackslashes_of_readText hends hs
        rw [readText_printText hpaired hends] at hs
        obtain ⟨rfl, rfl⟩ : t = s ∧ print es ++ rest = r := by simpa using hs
        obtain ⟨⟨es'', r'⟩, hread, h⟩ := bind_eq_ok.mp h
        obtain ⟨rfl, rfl⟩ : .text t :: es'' = es' ∧ r' = rest' := by
          simpa [pure, Except.pure] using h
        obtain ⟨rfl, hle, heq⟩ := ih.elements hes hr hread
        rw [weight, withinElement, List.forall_mem_singleton]
        exact ⟨rfl, by omega, fun hw ↦ ⟨hpaired, heq (by omega)⟩⟩
      | argument | formatted | choice => simp [Element.isText] at htext

theorem readArgument_choice_cases {name : Text} (hname : IsName name) {kind : ChoiceKind}
    {fuel : Nat} {t rest : Text} {e : Element} (h : readArgument (fuel + 1) (name ++ (separator ++
      (kind.name ++ CodePoint.comma :: t))) = .ok (e, rest)) :
    ∃ offset options u v, readOffset kind (skipSpacing t) = .ok (offset, u) ∧
      readOptions fuel u = .ok (options, v) ∧ skipSpacing v = CodePoint.closeBrace :: rest ∧
      e = .choice name kind offset options := by
  obtain ⟨u, hh, -⟩ | ⟨u, v, name', kind', offset, options, hh, ho, hv, rfl⟩ :=
    readArgument_cases h
  · rw [readHead_choice hname] at hh
    obtain ⟨⟨offset, r⟩, -, hh⟩ := bind_eq_ok.mp hh
    simp [pure, Except.pure] at hh
  · rw [readHead_choice hname] at hh
    obtain ⟨⟨offset', r⟩, hoffset, hh⟩ := bind_eq_ok.mp hh
    obtain ⟨⟨rfl, rfl, rfl⟩, rfl⟩ : (name = name' ∧ kind = kind' ∧ offset' = offset) ∧ r = u := by
      simpa [pure, Except.pure] using hh
    exact ⟨offset', options, r, v, hoffset, ho, hv, rfl⟩

/-- A choice is read again only without an offset: what is printed after one is no option. -/
theorem offset_eq_zero_of_readArgument {name : Text} {kind : ChoiceKind} {offset : Nat}
    {options : List (Text × List Element)} {t rest : Text} {e : Element} {fuel : Nat}
    (hname : IsName name) (hoffset : offset ≠ 0 → kind.takesOffset = true ∧ IsNumeral offset)
    (h : readArgument (fuel + 1) (body (.choice name kind offset options) ++ t) = .ok (e, rest)) :
    offset = 0 := by
  by_contra hne
  obtain ⟨hk, hn⟩ := hoffset hne
  rw [body_choice_of_ne hne] at h
  obtain ⟨offset', options', u, v, ho, hopts, -⟩ := readArgument_choice_cases hname h
  have hstop : Stops isSpacing (offsetWord ++ CodePoint.colon :: (ofNat offset ++
      CodePoint.comma :: (printOptions options ++ t))) := stops_cons.mpr (by decide)
  rw [skipSpacing_space, skipSpacing_of_stops hstop, readOffset_printed hk hn] at ho
  obtain ⟨-, rfl⟩ : offset = offset' ∧ _ = u := by simpa using ho
  exact readOptions_ne_ok (by decide) (by decide) (by decide) _ _ hopts

theorem shrinks_choice {fuel : Nat} (ih : Shrinks fuel) {name : Text} {kind : ChoiceKind}
    {offset : Nat} {options : List (Text × List Element)} {e' : Element} {rest rest' : Text}
    (hwf : WellFormedElement (.choice name kind offset options))
    (h : readArgument (fuel + 1) (body (.choice name kind offset options) ++
      CodePoint.closeBrace :: rest) = .ok (e', rest')) :
    rest' = rest ∧ weightElement e' ≤ weightElement (.choice name kind offset options) ∧
      (weightElement e' = weightElement (.choice name kind offset options) →
        ∀ x ∈ withinElement (.choice name kind offset options), x.isReadBack = true) := by
  simp only [WellFormedElement] at hwf
  obtain ⟨hname, hoffset, hne, hoptions⟩ := hwf
  obtain rfl := offset_eq_zero_of_readArgument hname hoffset h
  cases options with
  | nil => exact absurd rfl hne
  | cons o more =>
    obtain ⟨selector, pattern⟩ := o
    have hwf := hoptions
    simp only [WellFormedOptions] at hwf
    obtain ⟨hselector, hpattern, hmore⟩ := hwf
    rw [body_choice_zero] at h
    obtain ⟨offset', options', u, v, ho, hopts, hv, rfl⟩ := readArgument_choice_cases hname h
    rw [skipSpacing_printOptions hselector] at ho
    by_cases hlook : kind.takesOffset = true ∧ selector.startsWith offsetWord = true
    · -- The options that are read begin with what is left of the first selector.
      obtain ⟨z, rfl, hlt, hz⟩ := readOffset_of_offsetWord hlook.1 hlook.2 hselector ho
      have hzne : z ≠ [] := by
        rintro rfl
        exact readOptions_ne_ok (by decide) (by decide) (by decide) _ _
          (readOptions_skipSpacing.mpr hopts)
      have hzs : IsSelector z := .inr ⟨hzne, hz⟩
      rw [← skipSpacing_printOptions hzs, readOptions_skipSpacing] at hopts
      have hzwf : WellFormedOptions ((z, pattern) :: more) := by
        simpa only [WellFormedOptions] using ⟨hzs, hpattern, hmore⟩
      obtain ⟨rfl, hle, -⟩ := ih.options (by simp) hzwf hopts
      simp only [weightOptions] at hle
      simp only [weightElement, weightOptions]
      exact ⟨(List.cons_eq_cons.mp hv).2.symm, by omega, fun hw ↦ by omega⟩
    · have hfirst : kind.takesOffset = true → selector.startsWith offsetWord = false :=
        fun hk ↦ Bool.not_eq_true _ ▸ fun hs ↦ hlook ⟨hk, hs⟩
      rw [readOffset_of_option hfirst] at ho
      obtain ⟨rfl, rfl⟩ : 0 = offset' ∧ _ = u := by simpa using ho
      rw [← skipSpacing_printOptions hselector, readOptions_skipSpacing] at hopts
      obtain ⟨rfl, hle, heq⟩ := ih.options (by simp) hoptions hopts
      simp only [weightElement]
      refine ⟨(List.cons_eq_cons.mp hv).2.symm, by omega, fun hw ↦ ?_⟩
      obtain ⟨hspacing, hwithin⟩ := heq (by omega)
      rw [withinElement, List.forall_mem_cons, isReadBack_choice]
      exact ⟨⟨fun _ ↦ rfl, hfirst, hspacing⟩, hwithin⟩

theorem shrinks_argument {fuel : Nat} (ih : Shrinks fuel) {e e' : Element} {rest rest' : Text}
    (htext : e.isText = false) (hwf : WellFormedElement e)
    (h : readArgument (fuel + 1) (body e ++ CodePoint.closeBrace :: rest) = .ok (e', rest')) :
    rest' = rest ∧ weightElement e' ≤ weightElement e ∧
      (weightElement e' = weightElement e → ∀ x ∈ withinElement e, x.isReadBack = true) := by
  cases e with
  | text t => simp [Element.isText] at htext
  | argument name =>
    rw [readArgument_argument hwf] at h
    obtain ⟨rfl, rfl⟩ : .argument name = e' ∧ rest = rest' := by simpa using h
    exact ⟨rfl, le_rfl, by simp [withinElement, Element.isReadBack]⟩
  | formatted name kind style =>
    rw [readArgument_formatted hwf] at h
    obtain ⟨rfl, rfl⟩ : .formatted name kind style = e' ∧ rest = rest' := by simpa using h
    exact ⟨rfl, le_rfl, by simp [withinElement, Element.isReadBack]⟩
  | choice name kind offset options => exact shrinks_choice ih hwf h

/-- The options after one, if there are any, are read again, and else the closing brace. -/
theorem shrinks_more {fuel : Nat} (ih : Shrinks fuel) {more more' : List (Text × List Element)}
    {rest rest' : Text} (hwf : WellFormedOptions more)
    (h : more' = [] ∧ rest' = skipSpacing (printOptions more ++ CodePoint.closeBrace :: rest) ∧
        (∃ x, rest' = CodePoint.closeBrace :: x) ∨
      readOptions fuel (printOptions more ++ CodePoint.closeBrace :: rest) = .ok (more', rest')) :
    rest' = CodePoint.closeBrace :: rest ∧ weightOptions more' ≤ weightOptions more ∧
      (weightOptions more' = weightOptions more →
        (∀ o ∈ more, startsWithSpacing o.2 = false) ∧
          ∀ e ∈ withinOptions more, e.isReadBack = true) := by
  cases more with
  | nil =>
    rcases h with ⟨rfl, hrest, -⟩ | h
    · exact ⟨hrest, le_rfl, by simp [withinOptions]⟩
    · exact absurd h (readOptions_ne_ok (by decide) (by decide) (by decide) _ _)
  | cons o more =>
    rcases h with ⟨-, hrest, x, rfl⟩ | h
    · simp only [WellFormedOptions] at hwf
      rw [skipSpacing_printOptions hwf.1] at hrest
      exact absurd hrest.symm (hwf.1.append_ne _ _)
    · exact ih.options (by simp) hwf h

theorem shrinks_options {fuel : Nat} (ih : Shrinks fuel)
    {options options' : List (Text × List Element)} {rest rest' : Text} (hne : options ≠ [])
    (hwf : WellFormedOptions options)
    (h : readOptions (fuel + 1) (printOptions options ++ CodePoint.closeBrace :: rest) =
      .ok (options', rest')) :
    rest' = CodePoint.closeBrace :: rest ∧ weightOptions options' ≤ weightOptions options ∧
      (weightOptions options' = weightOptions options →
        (∀ o ∈ options, startsWithSpacing o.2 = false) ∧
          ∀ e ∈ withinOptions options, e.isReadBack = true) := by
  cases options with
  | nil => exact absurd rfl hne
  | cons o more =>
    obtain ⟨selector, pattern⟩ := o
    simp only [WellFormedOptions] at hwf
    obtain ⟨hselector, hpattern, hmore⟩ := hwf
    obtain ⟨u, v, w, selector', pattern', more', rfl, hs, hv, hp, hnext⟩ := readOptions_cases h
    rw [skipSpacing_printOptions hselector, readSelector_append hselector
      (stops_cons.mpr (by decide)) (stops_cons.mpr (by decide))] at hs
    obtain ⟨rfl, rfl⟩ : selector = selector' ∧ _ = u := by simpa using hs
    obtain ⟨-, rfl⟩ := List.cons_eq_cons.mp hv
    rw [skipSpacing_print hpattern (ends_closeBrace _)] at hp
    obtain ⟨hw, hle, heq⟩ := ih.elements (wellFormed_trimSpacing hpattern) (ends_closeBrace _) hp
    obtain ⟨-, rfl⟩ := List.cons_eq_cons.mp hw
    obtain ⟨rfl, hle', heq'⟩ := shrinks_more ih hmore hnext
    rw [List.forall_mem_cons, withinOptions, List.forall_mem_append, weightOptions, weightOptions]
    cases hstart : startsWithSpacing pattern with
    | true =>
      -- The spacing is skipped when the option is read again, so the weights cannot be equal.
      have hlt := weight_trimSpacing_lt hstart
      exact ⟨rfl, by omega, fun hw ↦ by omega⟩
    | false =>
      rw [trimSpacing_eq_self hpattern hstart] at hle heq
      refine ⟨rfl, by omega, fun hw ↦ ?_⟩
      obtain ⟨hspacing, hwithin⟩ := heq' (by omega)
      exact ⟨⟨rfl, hspacing⟩, heq (by omega), hwithin⟩

theorem shrinks (fuel : Nat) : Shrinks fuel := by
  induction fuel with
  | zero => constructor <;> intros <;> simp_all [readElements, readArgument, readOptions]
  | succ fuel ih => exact ⟨shrinks_elements ih, shrinks_argument ih, shrinks_options ih⟩

end MessageExtraction.Pattern
