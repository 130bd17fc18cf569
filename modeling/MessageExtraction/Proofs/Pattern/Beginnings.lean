import MessageExtraction.Proofs.Pattern.Grammar

/-!
The beginnings of messages: a text that is derived up to a point, together with what the grammar has
there. Whatever has been begun, there is a way to complete it.
-/

namespace MessageExtraction.Pattern

open Text

/-- What may come behind whole elements, besides more of them. -/
inductive DueBetween : (nested : Bool) → Expectation → Prop
  | escape (nested : Bool) : DueBetween nested .escape
  | closeBrace : DueBetween true (.character CodePoint.closeBrace)
  | openBraceOrText : DueBetween false .openBraceOrText

/-- What stands before the options of a choice, or before its offset. -/
inductive ChoiceHead (kind : ChoiceKind) : Text → Prop
  | intro {t u a name : Text} :
      Padded (Name · name) t → Padded (· = kind.name) u → IsSpacing a →
      ChoiceHead kind (t ++ CodePoint.comma :: (u ++ CodePoint.comma :: a))

/-- What may stand before options that have begun with a text. -/
inductive OffsetBegun (kind : ChoiceKind) (w : Text) : Text → Prop
  | absent :
      Stops isSpacing w → (kind.takesOffset = true → ¬offsetWord <+: w) → OffsetBegun kind w []
  | present {a b digits : Text} {offset : Nat} :
      kind.takesOffset = true → IsSpacing a → IsSpacing b → Spells digits offset →
      Stops isAnyDigit w →
      OffsetBegun kind w (offsetWord ++ (a ++ CodePoint.colon :: (b ++ digits)))

mutual

/-- Whole elements, perhaps with an argument begun behind them. -/
inductive ElementsBegin : (nested : Bool) → Text → Expectation → Prop
  | between {nested : Bool} {w : Text} {es : List Element} {what : Expectation} :
      Elements w es → DueBetween nested what → ElementsBegin nested w what
  | argument {nested : Bool} {w v : Text} {es : List Element} {what : Expectation} :
      Elements w es → ArgumentBegin v what →
      ElementsBegin nested (w ++ CodePoint.openBrace :: v) what

/-- An argument up to a point before its closing brace. -/
inductive ArgumentBegin : Text → Expectation → Prop
  | name {a : Text} : IsSpacing a → ArgumentBegin a .argumentName
  | bare {t name : Text} :
      Padded (Name · name) t → ArgumentBegin t (.character CodePoint.closeBrace)
  | format {t a name : Text} :
      Padded (Name · name) t → IsSpacing a → ArgumentBegin (t ++ CodePoint.comma :: a) .format
  | simple {t u name : Text} {kind : SimpleKind} {style : Option Text} :
      Padded (Name · name) t → Padded (SimpleFormat kind · style) u →
      ArgumentBegin (t ++ CodePoint.comma :: u) (.character CodePoint.closeBrace)
  | style {t u a name : Text} {kind : SimpleKind} :
      Padded (Name · name) t → Padded (· = kind.name) u → IsSpacing a →
      ArgumentBegin (t ++ CodePoint.comma :: (u ++ CodePoint.comma :: a)) .style
  | choice {t u name : Text} {kind : ChoiceKind} :
      Padded (Name · name) t → Padded (· = kind.name) u →
      ArgumentBegin (t ++ CodePoint.comma :: u) (.character CodePoint.comma)
  | colon {x b : Text} {kind : ChoiceKind} :
      ChoiceHead kind x → kind.takesOffset = true → IsSpacing b →
      ArgumentBegin (x ++ (offsetWord ++ b)) (.character CodePoint.colon)
  | offset {x b c : Text} {kind : ChoiceKind} :
      ChoiceHead kind x → kind.takesOffset = true → IsSpacing b → IsSpacing c →
      ArgumentBegin (x ++ (offsetWord ++ (b ++ CodePoint.colon :: c))) .number
  | options {x v w : Text} {kind : ChoiceKind} {what : Expectation} :
      ChoiceHead kind x → OffsetBegun kind w v → OptionsBegin w what →
      ArgumentBegin (x ++ (v ++ w)) what

/-- Whole options, and then one up to a point before its closing brace. -/
inductive OptionsBegin : Text → Expectation → Prop
  | selector {a : Text} : IsSpacing a → OptionsBegin a .selector
  | number {a : Text} : IsSpacing a → OptionsBegin (a ++ [CodePoint.equals]) .number
  | brace {t selector : Text} :
      Padded (Selector · selector) t → OptionsBegin t (.character CodePoint.openBrace)
  | pattern {t a w selector : Text} {what : Expectation} :
      Padded (Selector · selector) t → IsSpacing a → Stops isSpacing w →
      ElementsBegin true w what → OptionsBegin (t ++ CodePoint.openBrace :: (a ++ w)) what
  | more {w v : Text} {o : Text × List Element} {what : Expectation} :
      Choice w o → OptionsBegin v what → OptionsBegin (w ++ v) what

end

section Completion

variable {t u v w selector : Text}

theorem Argument.isText {e : Element} (h : Argument v e) : e.isText = false := by
  cases h <;> rfl

theorem Elements.append_argument {es : List Element} {e : Element} (h : Elements w es)
    (he : Argument v e) :
    Elements (w ++ CodePoint.openBrace :: (v ++ [CodePoint.closeBrace])) (es ++ [e]) := by
  induction es generalizing w with
  | nil =>
    cases h
    exact .argument he .nil
  | cons d es ih =>
    cases h with
    | text hu hne hnext hrest =>
      rw [List.append_assoc]
      refine .text hu hne ?_ (ih hrest)
      cases es with
      | nil => exact he.isText
      | cons => exact hnext
    | argument hd hrest =>
      have hes := Elements.argument hd (ih hrest)
      simpa using hes

theorem padded_self {P : Text → Prop} (h : P w) : Padded P w :=
  ⟨[], w, [], isSpacing_nil, h, isSpacing_nil, by simp⟩

theorem padded_of_spacing {P : Text → Prop} {a : Text} (ha : IsSpacing a) (h : P w) :
    Padded P (a ++ w) :=
  ⟨a, w, [], ha, h, isSpacing_nil, by simp⟩

/-- A selector in front of which no spacing stands is what the text begins with. -/
theorem prefix_of_padded_selector (h : Padded (Selector · selector) t) (ht : Stops isSpacing t)
    (hword : offsetWord <+: selector) : offsetWord <+: t := by
  obtain ⟨a, s, b, ha, hs, -, rfl⟩ := h
  cases a with
  | nil => exact (hs.prefix_offsetWord.mpr hword).trans (List.prefix_append s b)
  | cons c a =>
    rw [List.cons_append, stops_cons, ha c List.mem_cons_self] at ht
    cases ht

/-- An option with nothing in its braces. -/
theorem choice_empty (h : Padded (Selector · selector) t) :
    Choice (t ++ [CodePoint.openBrace, CodePoint.closeBrace]) (selector, []) :=
  .intro h isSpacing_nil .nil stops_nil

def other : Text := "other"

def emptyOther : Text := other ++ [CodePoint.openBrace, CodePoint.closeBrace]

theorem selector_other : Selector other other := .word ⟨by decide, by decide⟩

theorem options_emptyOther : Options emptyOther [(other, [])] :=
  .last (choice_empty (padded_self selector_other))

theorem stops_emptyOther : Stops isAnyDigit emptyOther := stops_cons.mpr (by decide)

theorem spells_one : Spells "1" 1 := ⟨by decide, by decide, by decide⟩

theorem ChoiceHead.exists_argument {x : Text} {kind : ChoiceKind} {offset : Nat}
    {os : List (Text × List Element)} (hx : ChoiceHead kind x)
    (hv : OffsetClause kind w os v offset) (hw : Options w os) :
    ∃ e, Argument (x ++ (v ++ w)) e := by
  cases hx with
  | intro ht hu ha => exact ⟨_, by simpa using Argument.choice ht hu ha hv hw isSpacing_nil⟩

theorem offsetClause_emptyOther (kind : ChoiceKind) :
    OffsetClause kind emptyOther [(other, [])] [] 0 := by
  refine .absent fun _ o ho ↦ ?_
  cases ho
  decide

/-- A text can be completed to options. Their first selector begins with the word for an offset only
if the text does, and they begin with a digit only if it does. -/
def OptionsCompletable (w : Text) : Prop :=
  ∃ c os, Options (w ++ c) os ∧
    (Stops isSpacing w → ∀ o ∈ os.head?, offsetWord <+: o.1 → offsetWord <+: w) ∧
    (Stops isAnyDigit w → Stops isAnyDigit (w ++ c))

theorem OffsetBegun.exists_argument {x : Text} {kind : ChoiceKind} (hx : ChoiceHead kind x)
    (hv : OffsetBegun kind w v) (hw : OptionsCompletable w) :
    ∃ c e, Argument (x ++ (v ++ w) ++ c) e := by
  obtain ⟨c, os, hos, hfirst, hdigit⟩ := hw
  have hclause : ∃ offset, OffsetClause kind (w ++ c) os v offset := by
    cases hv with
    | absent hstop hword => exact ⟨0, .absent fun hk o ho ho' ↦ hword hk (hfirst hstop o ho ho')⟩
    | present hk ha hb hdigits hstop => exact ⟨_, .present hk ha hb hdigits (hdigit hstop)⟩
  obtain ⟨offset, hclause⟩ := hclause
  obtain ⟨e, he⟩ := hx.exists_argument hclause hos
  exact ⟨c, e, by simpa using he⟩

theorem ne_nil_of_padded_selector (h : Padded (Selector · selector) t) : t ≠ [] := by
  obtain ⟨a, s, b, -, hs, -, rfl⟩ := h
  cases hs with
  | number => simp
  | word h => simp [h.1]

/-- Options whose first selector is whole can be completed if they can be from there on. -/
theorem optionsCompletable_of_selector {es : List Element} {os : List (Text × List Element)}
    (ht : Padded (Selector · selector) t) (h : Options (t ++ u ++ v) ((selector, es) :: os)) :
    OptionsCompletable (t ++ u) := by
  have hne : t ++ u ≠ [] := by simp [ne_nil_of_padded_selector ht]
  refine ⟨v, _, h, fun hstop o ho hword ↦ ?_, fun hdigit ↦ stops_append hne hdigit v⟩
  cases ho
  have hstop : Stops isSpacing t := by
    cases t with
    | nil => exact stops_nil
    | cons c t => exact hstop
  exact (prefix_of_padded_selector ht hstop hword).trans (List.prefix_append t u)

/-- Options can be completed where a selector can, to one that is not the word for an offset. -/
theorem optionsCompletable_of_other (h : Padded (Selector · selector) (w ++ v))
    (hword : ¬offsetWord <+: selector) (hdigit : Stops isAnyDigit w → Stops isAnyDigit (w ++ v)) :
    OptionsCompletable w := by
  have hne := ne_nil_of_padded_selector h
  refine ⟨v ++ [CodePoint.openBrace, CodePoint.closeBrace], [(selector, [])], ?_, ?_, ?_⟩
  · simpa using Options.last (choice_empty h)
  · intro _ o ho hprefix
    cases ho
    exact absurd hprefix hword
  · intro hstop
    rw [← List.append_assoc]
    exact stops_append hne (hdigit hstop) _

mutual

/-- What has been begun can be completed to elements, nothing by nothing. -/
theorem ElementsBegin.exists_elements {nested : Bool} {w : Text} {what : Expectation} :
    ElementsBegin nested w what → ∃ c es, Elements (w ++ c) es ∧ (w = [] → c = [])
  | .between hw _ => ⟨[], _, by rwa [List.append_nil], fun _ ↦ rfl⟩
  | .argument hw hv => by
    obtain ⟨c, e, he⟩ := hv.exists_argument
    exact ⟨c ++ [CodePoint.closeBrace], _, by simpa using hw.append_argument he, by simp⟩

theorem ArgumentBegin.exists_argument {v : Text} {what : Expectation} :
    ArgumentBegin v what → ∃ c e, Argument (v ++ c) e
  | .name ha => ⟨"n", _, .bare (padded_of_spacing ha
      (.word ⟨by decide, by decide⟩ (stops_cons.mpr (by decide))))⟩
  | .bare ht => ⟨[], _, .bare (by rwa [List.append_nil])⟩
  | .format ht ha => ⟨SimpleKind.number.name, _, by
      simpa using Argument.simple ht (padded_of_spacing ha (@SimpleFormat.plain .number))⟩
  | .simple ht hu => ⟨[], _, by simpa using Argument.simple ht hu⟩
  | @ArgumentBegin.style _ _ _ _ kind ht hu ha => by
    obtain ⟨b, _, c, hb, rfl, hc, rfl⟩ := hu
    have hformat : SimpleFormat kind _ (some "x") := .styled hc ha ⟨by decide, by decide⟩
    exact ⟨"x", _, by simpa using Argument.simple ht (padded_of_spacing hb hformat)⟩
  | .choice ht hu => by
    obtain ⟨e, he⟩ := (ChoiceHead.intro ht hu isSpacing_nil).exists_argument
      (offsetClause_emptyOther _) options_emptyOther
    exact ⟨CodePoint.comma :: emptyOther, e, by simpa using he⟩
  | .colon hx hk hb => by
    obtain ⟨e, he⟩ := hx.exists_argument
      (.present hk hb isSpacing_nil spells_one stops_emptyOther) options_emptyOther
    exact ⟨CodePoint.colon :: (("1" : Text) ++ emptyOther), e, by simpa using he⟩
  | .offset hx hk hb hc => by
    obtain ⟨e, he⟩ := hx.exists_argument
      (.present hk hb hc spells_one stops_emptyOther) options_emptyOther
    exact ⟨("1" : Text) ++ emptyOther, e, by simpa using he⟩
  | .options hx hv hw => hv.exists_argument hx hw.completable

theorem OptionsBegin.completable {w : Text} {what : Expectation} :
    OptionsBegin w what → OptionsCompletable w
  | .selector ha => by
    refine optionsCompletable_of_other (padded_of_spacing ha selector_other) (by decide) fun _ ↦ ?_
    exact ha.stops_append isAnyDigit_of_isSpacing (stops_cons.mpr (by decide))
  | .number (a := a) ha => by
    have hselector : Padded (Selector · (CodePoint.equals :: ofNat 1))
        (a ++ CodePoint.equals :: "1") := padded_of_spacing ha (.number spells_one)
    rw [List.append_cons] at hselector
    exact optionsCompletable_of_other hselector (by decide) (stops_append (by simp) · _)
  | .brace ht => by
    have hoption := Options.last (choice_empty ht)
    rw [← List.append_nil w] at hoption ⊢
    exact optionsCompletable_of_selector ht hoption
  | @OptionsBegin.pattern t a w selector _ ht ha hstop hw => by
    obtain ⟨c, es, hes, hnil⟩ := hw.exists_elements
    have hstop : Stops isSpacing (w ++ c) := by
      cases w with
      | nil =>
        rw [hnil rfl]
        exact stops_nil
      | cons d w => exact hstop
    have hoption : Options (t ++ CodePoint.openBrace :: (a ++ w) ++ (c ++ [CodePoint.closeBrace]))
        [(selector, es)] := by
      simpa using Options.last (.intro ht ha hes hstop)
    exact optionsCompletable_of_selector ht hoption
  | .more (v := v) ho hv => by
    obtain ⟨c, os, hos, -, -⟩ := hv.completable
    have hoptions := Options.more ho hos
    cases ho with
    | intro ht ha hes hstop =>
      rw [← List.append_assoc, List.append_assoc _ _ v] at hoptions
      rw [List.append_assoc]
      exact optionsCompletable_of_selector ht hoptions

end

end Completion

end MessageExtraction.Pattern
