import MessageExtraction.Proofs.Pattern.Shape

namespace MessageExtraction

namespace Pattern

mutual

/-- An element and those that stand inside it, at every depth. -/
def withinElement : Element → List Element
  | .text t => [.text t]
  | .argument name => [.argument name]
  | .formatted name kind style => [.formatted name kind style]
  | .choice name kind offset options =>
    .choice name kind offset options :: withinOptions options

def withinOptions : List (Text × List Element) → List Element
  | [] => []
  | (_, pattern) :: rest => within pattern ++ withinOptions rest

/-- The elements of a pattern at every depth. -/
def within : List Element → List Element
  | [] => []
  | e :: rest => withinElement e ++ within rest

end

def startsWithSpacing : List Element → Bool
  | .text (c :: _) :: _ => isSpacing c
  | _ => false

def offsetWord : Text := "offset"

end Pattern

/-- Whether an element, those inside it apart, can be read from what is printed for it. A number that
chooses has no offset, and its first option does not look like one; the pattern of an option does not
begin with spacing; and a text has no backslash but before a number sign. -/
def Element.isReadBack : Element → Bool
  | .text t => Pattern.hasPairedBackslashes t
  | .choice _ kind offset options =>
    (!kind.takesOffset || offset == 0) &&
      (!kind.takesOffset || !options.head?.any fun o ↦ o.1.startsWith Pattern.offsetWord) &&
      options.all fun o ↦ !Pattern.startsWithSpacing o.2
  | _ => true

namespace Pattern

open Text

theorem isReadBack_choice {name selector : Text} {kind : ChoiceKind} {offset : Nat}
    {pattern : List Element} {more : List (Text × List Element)} :
    (Element.choice name kind offset ((selector, pattern) :: more)).isReadBack = true ↔
      (kind.takesOffset = true → offset = 0) ∧
      (kind.takesOffset = true → selector.startsWith offsetWord = false) ∧
      ∀ o ∈ (selector, pattern) :: more, startsWithSpacing o.2 = false := by
  cases hk : kind.takesOffset <;> simp [Element.isReadBack, hk, and_assoc]

theorem offset_eq_zero_of_isReadBack {name : Text} {kind : ChoiceKind} {offset : Nat}
    {options : List (Text × List Element)}
    (h : (Element.choice name kind offset options).isReadBack = true)
    (hoffset : offset ≠ 0 → kind.takesOffset = true ∧ IsNumeral offset) (hne : options ≠ []) :
    offset = 0 := by
  cases options with
  | nil => exact absurd rfl hne
  | cons o more =>
    by_contra hoff
    exact hoff ((isReadBack_choice.mp h).1 (hoffset hoff).1)

/-- What is printed between the braces of an argument. -/
def body : Element → Text
  | .text _ => []
  | .argument name => name
  | .formatted name kind style => name ++ (separator ++ (kind.name ++ printStyle style))
  | .choice name kind offset options =>
    name ++ (separator ++ (kind.name ++ (printOffset offset ++ CodePoint.comma ::
      printOptions options)))

theorem printElement_eq_body {e : Element} (h : e.isText = false) (t : Text) :
    printElement e ++ t = CodePoint.openBrace :: (body e ++ CodePoint.closeBrace :: t) := by
  cases e <;> simp_all [Element.isText, printElement, body, inBraces]

theorem printOptions_append (selector : Text) (pattern : List Element)
    (more : List (Text × List Element)) (t : Text) :
    printOptions ((selector, pattern) :: more) ++ t = CodePoint.space :: (selector ++
      CodePoint.space :: CodePoint.openBrace :: (print pattern ++ CodePoint.closeBrace ::
        (printOptions more ++ t))) := by
  simp [printOptions, inBraces]

theorem skipSpacing_printOptions {selector : Text} (h : IsSelector selector)
    (pattern : List Element) (more : List (Text × List Element)) (t : Text) :
    skipSpacing (printOptions ((selector, pattern) :: more) ++ t) = selector ++
      CodePoint.space :: CodePoint.openBrace :: (print pattern ++ CodePoint.closeBrace ::
        (printOptions more ++ t)) := by
  rw [printOptions_append, skipSpacing_space,
    skipSpacing_of_stops (stops_append h.ne_nil h.stops_spacing _)]

theorem body_choice_zero (name : Text) (kind : ChoiceKind)
    (options : List (Text × List Element)) (t : Text) :
    body (.choice name kind 0 options) ++ t =
      name ++ (separator ++ (kind.name ++ CodePoint.comma :: (printOptions options ++ t))) := by
  simp [body, printOffset]

theorem print_append (e : Element) (es : List Element) (t : Text) :
    print (e :: es) ++ t = printElement e ++ (print es ++ t) := by
  simp [print]

/-- What follows a text in a well-formed pattern does not go on with it. -/
theorem endsText_print {es : List Element} (h : startsWithText es = false) {nested : Bool}
    {rest : Text} (hr : Ends nested rest) : EndsText (print es ++ rest) := by
  cases es with
  | nil => simpa [print] using hr.endsText
  | cons e es =>
    rw [print_append, printElement_eq_body h]
    exact endsText_openBrace _

theorem readOptions_skipSpacing {fuel : Nat} {t : Text} {r : List (Text × List Element) × Text} :
    readOptions fuel (skipSpacing t) = .ok r ↔ readOptions fuel t = .ok r := by
  cases fuel with
  | zero => simp [readOptions]
  | succ fuel => rw [readOptions, readOptions, skipSpacing_idem]

theorem readHead_choice {name : Text} (h : IsName name) (kind : ChoiceKind) (t : Text) :
    readHead (name ++ (separator ++ (kind.name ++ CodePoint.comma :: t))) = (do
      let (offset, rest) ← readOffset kind (skipSpacing t)
      return (.opened name kind offset, rest)) := by
  rw [readHead_format h (kind.stops_spacing_name _), readFormat_choice]

theorem readArgument_of_whole {t u rest : Text} {e : Element}
    (h : readHead t = .ok (.whole e, u)) (hu : skipSpacing u = CodePoint.closeBrace :: rest)
    (fuel : Nat) : readArgument (fuel + 1) t = .ok (e, rest) := by
  rw [readArgument, h]
  change (expect CodePoint.closeBrace (skipSpacing u) >>= _) = _
  rw [hu, expect_cons]
  rfl

theorem readArgument_argument {name : Text} (h : WellFormedElement (.argument name))
    (rest : Text) (fuel : Nat) :
    readArgument (fuel + 1) (body (.argument name) ++ CodePoint.closeBrace :: rest) =
      .ok (.argument name, rest) := by
  have hname : IsName name := by simpa only [WellFormedElement] using h
  exact readArgument_of_whole (readHead_argument hname rest) rfl fuel

theorem readArgument_formatted {name : Text} {kind : SimpleKind} {style : Option Text}
    (h : WellFormedElement (.formatted name kind style)) (rest : Text) (fuel : Nat) :
    readArgument (fuel + 1) (body (.formatted name kind style) ++ CodePoint.closeBrace :: rest) =
      .ok (.formatted name kind style, rest) := by
  obtain ⟨hname, hstyle⟩ : IsName name ∧ ∀ s ∈ style, IsStyle s := by
    simpa only [WellFormedElement] using h
  refine readArgument_of_whole (u := CodePoint.closeBrace :: rest) ?_ rfl fuel
  simp only [body, List.append_assoc]
  rw [readHead_format hname (kind.stops_spacing_name _), readFormat_simple name kind hstyle]

theorem readArgument_of_opened {t u rest : Text} {name : Text} {kind : ChoiceKind} {offset : Nat}
    {options : List (Text × List Element)} {fuel : Nat}
    (h : readHead t = .ok (.opened name kind offset, u))
    (ho : readOptions fuel u = .ok (options, CodePoint.closeBrace :: rest)) :
    readArgument (fuel + 1) t = .ok (.choice name kind offset options, rest) := by
  rw [readArgument, h]
  change (readOptions fuel u >>= _) = _
  rw [ho]
  rfl

/-- A first option that does not look like an offset leaves none to be read. -/
theorem readOffset_of_option {kind : ChoiceKind} {selector : Text}
    (h : kind.takesOffset = true → selector.startsWith offsetWord = false) (t : Text) :
    readOffset kind (selector ++ CodePoint.space :: t) =
      .ok (0, selector ++ CodePoint.space :: t) := by
  rw [readOffset]
  split
  · rename_i hk
    split
    · rename_i rest hrest
      have hsplit : offsetWord ++ rest = selector ++ CodePoint.space :: t :=
        (dropBeginning?_eq_some.mp hrest).symm
      obtain ⟨z, rfl, -⟩ := append_eq_append_cons (by decide) hsplit
      have hz : (offsetWord ++ z).startsWith offsetWord = true :=
        List.isPrefixOf_iff_prefix.mpr ⟨z, rfl⟩
      rw [h hk] at hz
      contradiction
    · rfl
  · rfl

/-- A well-formed option is read up to its end, and with it those that follow. -/
theorem readOptions_of_pattern {selector : Text} (h : IsSelector selector)
    {pattern : List Element} {t u : Text} {fuel : Nat}
    (hp : readElements true fuel (skipSpacing t) = .ok (pattern, CodePoint.closeBrace :: u)) :
    readOptions (fuel + 1) (CodePoint.space :: (selector ++
      CodePoint.space :: CodePoint.openBrace :: t)) =
      match skipSpacing u with
      | CodePoint.closeBrace :: after =>
        .ok ([(selector, pattern)], CodePoint.closeBrace :: after)
      | _ => do
        let (options, rest) ← readOptions fuel u
        return ((selector, pattern) :: options, rest) := by
  have hselector : readSelector (selector ++ CodePoint.space :: CodePoint.openBrace :: t) =
      .ok (selector, CodePoint.space :: CodePoint.openBrace :: t) :=
    readSelector_append h (stops_cons.mpr (by decide)) (stops_cons.mpr (by decide))
  rw [readOptions, skipSpacing_space,
    skipSpacing_of_stops (stops_append h.ne_nil h.stops_spacing _), hselector]
  change (readElements true fuel (skipSpacing t) >>= _) = _
  rw [hp]
  rfl

theorem stops_spacing_print {es : List Element} (hwf : WellFormed es)
    (h : startsWithSpacing es = false) {rest : Text} (hr : Stops isSpacing rest) :
    Stops isSpacing (print es ++ rest) := by
  cases es with
  | nil => simpa [print] using hr
  | cons e es =>
    rw [print_append]
    cases he : e.isText with
    | false =>
      rw [printElement_eq_body he]
      exact stops_cons.mpr (by decide)
    | true =>
      cases e with
      | text t =>
        cases t with
        | nil => simp [WellFormed, WellFormedElement] at hwf
        | cons c t => exact stops_spacing_printText h _ _
      | argument | formatted | choice => simp [Element.isText] at he

/-- With fuel for all that is printed, what can be read back is. -/
structure ReadsBack (fuel : Nat) : Prop where
  elements : ∀ {nested es rest}, WellFormed es → (∀ e ∈ within es, e.isReadBack = true) →
    Ends nested rest → (print es).length < fuel →
    readElements nested fuel (print es ++ rest) = .ok (es, rest)
  argument : ∀ {e rest}, e.isText = false → WellFormedElement e →
    (∀ x ∈ withinElement e, x.isReadBack = true) → (body e).length < fuel →
    readArgument fuel (body e ++ CodePoint.closeBrace :: rest) = .ok (e, rest)
  options : ∀ {options rest}, options ≠ [] → WellFormedOptions options →
    (∀ o ∈ options, startsWithSpacing o.2 = false) →
    (∀ e ∈ withinOptions options, e.isReadBack = true) → (printOptions options).length < fuel →
    readOptions fuel (printOptions options ++ CodePoint.closeBrace :: rest) =
      .ok (options, CodePoint.closeBrace :: rest)

theorem readElements_print_succ {fuel : Nat} (ih : ReadsBack fuel) {nested : Bool}
    {es : List Element} {rest : Text} (hwf : WellFormed es)
    (hrb : ∀ e ∈ within es, e.isReadBack = true) (hr : Ends nested rest)
    (hlen : (print es).length < fuel + 1) :
    readElements nested (fuel + 1) (print es ++ rest) = .ok (es, rest) := by
  cases es with
  | nil => exact readElements_of_ends hr fuel
  | cons e es =>
    simp only [WellFormed] at hwf
    obtain ⟨he, hnext, hes⟩ := hwf
    rw [within, List.forall_mem_append] at hrb
    rw [print_append]
    cases htext : e.isText with
    | false =>
      have hsize := congrArg List.length (printElement_eq_body htext [])
      simp only [print, List.length_append, List.length_cons, List.append_nil, List.length_nil]
        at hlen hsize
      rw [printElement_eq_body htext, readElements_argument,
        ih.argument htext he hrb.1 (by omega)]
      change (readElements nested fuel (print es ++ rest) >>= _) = _
      rw [ih.elements hes hrb.2 hr (by omega)]
      rfl
    | true =>
      cases e with
      | text t =>
        have hne : t ≠ [] := by simpa only [WellFormedElement] using he
        have hpaired : hasPairedBackslashes t = true := hrb.1 (.text t) (by simp [withinElement])
        have hpos : 0 < (printText t).length := by
          rw [List.length_pos_iff]
          rintro h0
          exact not_endsText_printText hne [] (by rw [h0]; exact stops_nil)
        simp only [print, printElement, List.length_append] at hlen
        rw [printElement, readElements_text (not_endsText_printText hne _),
          readText_printText hpaired (endsText_print (hnext htext) hr)]
        change (readElements nested fuel (print es ++ rest) >>= _) = _
        rw [ih.elements hes hrb.2 hr (by omega)]
        rfl
      | argument | formatted | choice => simp [Element.isText] at htext

theorem readArgument_body_succ {fuel : Nat} (ih : ReadsBack fuel) {e : Element} {rest : Text}
    (htext : e.isText = false) (hwf : WellFormedElement e)
    (hrb : ∀ x ∈ withinElement e, x.isReadBack = true) (hlen : (body e).length < fuel + 1) :
    readArgument (fuel + 1) (body e ++ CodePoint.closeBrace :: rest) = .ok (e, rest) := by
  cases e with
  | text t => simp [Element.isText] at htext
  | argument name => exact readArgument_argument hwf rest fuel
  | formatted name kind style => exact readArgument_formatted hwf rest fuel
  | choice name kind offset options =>
    simp only [WellFormedElement] at hwf
    obtain ⟨hname, hoffset, hne, hoptions⟩ := hwf
    rw [withinElement, List.forall_mem_cons] at hrb
    obtain ⟨hrb, hwithin⟩ := hrb
    obtain rfl := offset_eq_zero_of_isReadBack hrb hoffset hne
    cases options with
    | nil => exact absurd rfl hne
    | cons o more =>
      obtain ⟨selector, pattern⟩ := o
      obtain ⟨-, hfirst, hspacing⟩ := isReadBack_choice.mp hrb
      have hselector : IsSelector selector := by
        simp only [WellFormedOptions] at hoptions
        exact hoptions.1
      have hread : readHead (body (.choice name kind 0 ((selector, pattern) :: more)) ++
          CodePoint.closeBrace :: rest) = .ok (.opened name kind 0,
            skipSpacing (printOptions ((selector, pattern) :: more) ++
              CodePoint.closeBrace :: rest)) := by
        rw [body_choice_zero, readHead_choice hname, skipSpacing_printOptions hselector,
          readOffset_of_option hfirst]
        rfl
      have hsize : (printOptions ((selector, pattern) :: more)).length < fuel := by
        simp only [body, List.length_append, List.length_cons] at hlen
        omega
      exact readArgument_of_opened hread
        (readOptions_skipSpacing.mpr (ih.options hne hoptions hspacing hwithin hsize))

theorem readOptions_print_succ {fuel : Nat} (ih : ReadsBack fuel)
    {options : List (Text × List Element)} {rest : Text} (hne : options ≠ [])
    (hwf : WellFormedOptions options) (hspacing : ∀ o ∈ options, startsWithSpacing o.2 = false)
    (hrb : ∀ e ∈ withinOptions options, e.isReadBack = true)
    (hlen : (printOptions options).length < fuel + 1) :
    readOptions (fuel + 1) (printOptions options ++ CodePoint.closeBrace :: rest) =
      .ok (options, CodePoint.closeBrace :: rest) := by
  cases options with
  | nil => exact absurd rfl hne
  | cons o more =>
    obtain ⟨selector, pattern⟩ := o
    simp only [WellFormedOptions] at hwf
    obtain ⟨hselector, hpattern, hmore⟩ := hwf
    rw [withinOptions, List.forall_mem_append] at hrb
    have hsize := congrArg List.length (printOptions_append selector pattern more [])
    simp only [List.append_nil, List.length_append, List.length_cons] at hsize
    have hread (t : Text) : readElements true fuel (skipSpacing (print pattern ++
        CodePoint.closeBrace :: t)) = .ok (pattern, CodePoint.closeBrace :: t) := by
      rw [skipSpacing_of_stops (stops_spacing_print hpattern
        (hspacing _ List.mem_cons_self) (stops_cons.mpr (by decide)))]
      exact ih.elements hpattern hrb.1 ⟨t, rfl⟩ (by omega)
    rw [printOptions_append, readOptions_of_pattern hselector (hread _)]
    cases more with
    | nil => rfl
    | cons o' more =>
      obtain ⟨selector', pattern'⟩ := o'
      have hselector' : IsSelector selector' := by
        simp only [WellFormedOptions] at hmore
        exact hmore.1
      have hnext : readOptions fuel (printOptions ((selector', pattern') :: more) ++
          CodePoint.closeBrace :: rest) = .ok _ :=
        ih.options (by simp) hmore (fun o ho ↦ hspacing o (List.mem_cons_of_mem _ ho)) hrb.2
          (by omega)
      rw [hnext]
      split
      · rename_i after hafter
        rw [skipSpacing_printOptions hselector'] at hafter
        exact absurd hafter (hselector'.append_ne _ _)
      · rfl

theorem readsBack (fuel : Nat) : ReadsBack fuel := by
  induction fuel with
  | zero => constructor <;> intros <;> omega
  | succ fuel ih =>
    exact ⟨readElements_print_succ ih, readArgument_body_succ ih, readOptions_print_succ ih⟩

end Pattern

end MessageExtraction
