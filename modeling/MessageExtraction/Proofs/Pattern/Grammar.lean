import MessageExtraction.Proofs.Pattern.ReadBack

/-!
The grammar of messages: which texts spell which patterns, said without reading them. A text derives
what it spells as a whole, so that a rule joins the texts of its parts.
-/

namespace MessageExtraction.Pattern

open Text

def IsSpacing (w : Text) : Prop := ∀ c ∈ w, isSpacing c = true

/-- Spacing may stand on both sides of a text that has a property. -/
def Padded (P : Text → Prop) (t : Text) : Prop :=
  ∃ a w b, IsSpacing a ∧ P w ∧ IsSpacing b ∧ t = a ++ (w ++ b)

/-- At least one digit, and together they are the digits of a number. -/
def Spells (w : Text) (n : Nat) : Prop :=
  w ≠ [] ∧ (∀ c ∈ w, isAnyDigit c = true) ∧ Number.decimal w = .ok n

/-- The ways to write a piece of text, and what is meant by them. -/
inductive TextUnit : Text → Text → Prop
  | plain {c : CodePoint} :
      isBrace c = false → c ≠ CodePoint.backslash → TextUnit [c] [c]
  | brace {c : CodePoint} : isBrace c = true → TextUnit [CodePoint.backslash, c] [c]
  | hash : TextUnit [CodePoint.backslash, CodePoint.hash] [CodePoint.backslash, CodePoint.hash]
  | doubled : TextUnit [CodePoint.backslash, CodePoint.backslash, CodePoint.hash]
      [CodePoint.backslash, CodePoint.hash]
  | codePoint {digits : Text} {n : CodePoint} :
      digits.length = 4 → positional? 16 CodePoint.hexValue? digits = some n →
      TextUnit (CodePoint.backslash :: CodePoint.letterU :: digits) [n]

inductive TextUnits : Text → Text → Prop
  | nil : TextUnits [] []
  | cons {w t w' t' : Text} :
      TextUnit w t → TextUnits w' t' → TextUnits (w ++ w') (t ++ t')

/-- A name that is a number is known by its plain spelling. -/
inductive Name : Text → Text → Prop
  | number {w : Text} {n : Nat} : Spells w n → Name w (ofNat n)
  | word {w : Text} : IsWord w → Stops isAnyDigit w → Name w w

inductive Selector : Text → Text → Prop
  | number {w : Text} {n : Nat} :
      Spells w n → Selector (CodePoint.equals :: w) (CodePoint.equals :: ofNat n)
  | word {w : Text} : IsWord w → Selector w w

inductive SimpleFormat (kind : SimpleKind) : Text → Option Text → Prop
  | plain : SimpleFormat kind kind.name none
  | styled {a b style : Text} :
      IsSpacing a → IsSpacing b → IsStyle style →
      SimpleFormat kind (kind.name ++ (a ++ CodePoint.comma :: (b ++ style))) (some style)

/-- What may stand before the options of a choice. Options in front of which nothing stands do not
begin with the word for an offset; the digits of an offset go on as long as they can. -/
inductive OffsetClause (kind : ChoiceKind) (w : Text) (options : List (Text × List Element)) :
    Text → Nat → Prop
  | absent :
      (kind.takesOffset = true → ∀ o ∈ options.head?, ¬offsetWord <+: o.1) →
      OffsetClause kind w options [] 0
  | present {a b digits : Text} {offset : Nat} :
      kind.takesOffset = true → IsSpacing a → IsSpacing b → Spells digits offset →
      Stops isAnyDigit w →
      OffsetClause kind w options (offsetWord ++ (a ++ CodePoint.colon :: (b ++ digits))) offset

mutual

/-- Arguments and texts in any order. A text goes on as long as it can, so that none follows it. -/
inductive Elements : Text → List Element → Prop
  | nil : Elements [] []
  | text {w t rest : Text} {es : List Element} :
      TextUnits w t → t ≠ [] → startsWithText es = false → Elements rest es →
      Elements (w ++ rest) (.text t :: es)
  | argument {w rest : Text} {e : Element} {es : List Element} :
      Argument w e → Elements rest es →
      Elements (CodePoint.openBrace :: (w ++ CodePoint.closeBrace :: rest)) (e :: es)

/-- What stands between the braces of an argument. -/
inductive Argument : Text → Element → Prop
  | bare {t name : Text} : Padded (Name · name) t → Argument t (.argument name)
  | simple {t u name : Text} {kind : SimpleKind} {style : Option Text} :
      Padded (Name · name) t → Padded (SimpleFormat kind · style) u →
      Argument (t ++ CodePoint.comma :: u) (.formatted name kind style)
  | choice {t u v w a b name : Text} {kind : ChoiceKind} {offset : Nat}
      {options : List (Text × List Element)} :
      Padded (Name · name) t → Padded (· = kind.name) u → IsSpacing a →
      OffsetClause kind w options v offset → Options w options → IsSpacing b →
      Argument (t ++ CodePoint.comma :: (u ++ CodePoint.comma :: (a ++ (v ++ (w ++ b)))))
        (.choice name kind offset options)

/-- At least one option. -/
inductive Options : Text → List (Text × List Element) → Prop
  | last {w : Text} {o : Text × List Element} : Choice w o → Options w [o]
  | more {w w' : Text} {o : Text × List Element} {os : List (Text × List Element)} :
      Choice w o → Options w' os → Options (w ++ w') (o :: os)

/-- One option. The spacing in front of its pattern is none of it. -/
inductive Choice : Text → Text × List Element → Prop
  | intro {t a w selector : Text} {es : List Element} :
      Padded (Selector · selector) t → IsSpacing a → Elements w es → Stops isSpacing w →
      Choice (t ++ CodePoint.openBrace :: (a ++ (w ++ [CodePoint.closeBrace]))) (selector, es)

end

section Spacing

variable {a t : Text} {p : CodePoint → Bool}

theorem skipSpacing_append (ha : IsSpacing a) (ht : Stops isSpacing t) :
    skipSpacing (a ++ t) = t :=
  dropWhile_append_of_stops ha ht

theorem exists_spacing (t : Text) : ∃ a, IsSpacing a ∧ t = a ++ skipSpacing t :=
  ⟨t.takeWhile isSpacing, fun _ hc ↦ List.mem_takeWhile_imp hc,
    List.takeWhile_append_dropWhile.symm⟩

theorem isSpacing_nil : IsSpacing [] := by simp [IsSpacing]

/-- A class without spacing stops at spacing, or at what follows it. -/
theorem IsSpacing.stops_append (ha : IsSpacing a) (hp : ∀ c, isSpacing c = true → p c = false)
    (ht : Stops p t) : Stops p (a ++ t) := by
  cases a with
  | nil => exact ht
  | cons c a => exact stops_cons.mpr (hp c (ha c List.mem_cons_self))

theorem IsSpacing.append {a b : Text} (ha : IsSpacing a) (hb : IsSpacing b) : IsSpacing (a ++ b) :=
  List.forall_mem_append.mpr ⟨ha, hb⟩

theorem isWordPoint_of_isSpacing (c : CodePoint) (h : isSpacing c = true) :
    isWordPoint c = false := by
  simp [isWordPoint, h]

theorem isStylePoint_of_isSpacing (c : CodePoint) (h : isSpacing c = true) :
    isStylePoint c = false := by
  simp [isStylePoint, h]

theorem isAnyDigit_of_isSpacing (c : CodePoint) (h : isSpacing c = true) :
    isAnyDigit c = false := by
  have hc : c = CodePoint.space ∨ c = CodePoint.tab ∨ c = CodePoint.lineFeed ∨
      c = CodePoint.carriageReturn := by
    simpa [isSpacing, or_assoc] using h
  obtain rfl | rfl | rfl | rfl := hc <;> decide

theorem stops_after_spacing {a : Text} {c : CodePoint} (ha : IsSpacing a)
    (hw : isWordPoint c = false) (hd : isAnyDigit c = false) (t : Text) :
    Stops isWordPoint (a ++ c :: t) ∧ Stops isAnyDigit (a ++ c :: t) :=
  ⟨ha.stops_append isWordPoint_of_isSpacing (stops_cons.mpr hw),
    ha.stops_append isAnyDigit_of_isSpacing (stops_cons.mpr hd)⟩

/-- A word in front of spacing and another character begins with what the word itself begins
with. -/
theorem prefix_of_prefix_append {word w : Text} {c : CodePoint}
    (hword : ∀ d ∈ word, isSpacing d = false) (hc : c ∉ word) (ha : IsSpacing a)
    (h : word <+: w ++ (a ++ c :: t)) : word <+: w := by
  obtain ⟨rest, hrest⟩ := h
  rw [← List.append_assoc] at hrest
  obtain ⟨z, hz, -⟩ := append_eq_append_cons hc hrest
  rcases List.append_eq_append_iff.mp hz with ⟨x, hx, hz⟩ | ⟨x, hx, -⟩
  · cases x with
    | nil => exact ⟨[], by simpa using hx⟩
    | cons d x =>
      have hd := hword d (by simp [hx])
      have hs := ha d (by simp [hz])
      rw [hd] at hs
      contradiction
  · exact ⟨x, hx.symm⟩

end Spacing

section Parts

variable {t w name selector rest : Text}

theorem readNumber_eq_ok_iff_spells {n : Nat} :
    readNumber t = .ok (n, rest) ↔ ∃ w, Spells w n ∧ Stops isAnyDigit rest ∧ t = w ++ rest := by
  rw [readNumber_eq_ok]
  constructor
  · rintro ⟨w, hw, hn⟩
    obtain ⟨hne, hd, hs, rfl⟩ := readRun_eq_ok.mp hw
    exact ⟨w, ⟨hne, hd, hn⟩, hs, rfl⟩
  · rintro ⟨w, ⟨hne, hd, hn⟩, hs, rfl⟩
    exact ⟨w, readRun_eq_ok.mpr ⟨hne, hd, hs, rfl⟩, hn⟩

theorem stops_spacing_of_digits (hne : w ≠ []) (hd : ∀ c ∈ w, isAnyDigit c = true) (t : Text) :
    Stops isSpacing (w ++ t) := by
  refine stops_append hne (fun c hc ↦ ?_) t
  have hdigit := hd c (List.mem_of_mem_head? hc)
  rw [← Bool.not_eq_true]
  intro hs
  rw [isAnyDigit_of_isSpacing c hs] at hdigit
  contradiction

theorem Spells.stops_spacing {n : Nat} (h : Spells w n) (t : Text) : Stops isSpacing (w ++ t) :=
  stops_spacing_of_digits h.1 h.2.1 t

theorem Name.stops_spacing (h : Name w name) (t : Text) : Stops isSpacing (w ++ t) := by
  cases h with
  | number h => exact h.stops_spacing t
  | word h _ => exact stops_append h.1 h.stops_spacing t

theorem Selector.stops_spacing (h : Selector w selector) (t : Text) :
    Stops isSpacing (w ++ t) := by
  cases h with
  | number => exact stops_cons.mpr (by decide)
  | word h => exact stops_append h.1 h.stops_spacing t

theorem Selector.append_ne (h : Selector w selector) (t u : Text) :
    w ++ t ≠ CodePoint.closeBrace :: u := by
  cases h with
  | number =>
    rw [List.cons_append]
    exact fun h ↦ absurd (List.cons.inj h).1 (by decide)
  | word h => exact IsSelector.append_ne (.inr h) t u

/-- A selector that begins with the word for an offset is written as it is. -/
theorem Selector.prefix_offsetWord (h : Selector w selector) :
    offsetWord <+: w ↔ offsetWord <+: selector := by
  cases h with
  | @number w n =>
    have hne (t : Text) : ¬offsetWord <+: CodePoint.equals :: t := by
      rintro ⟨z, hz⟩
      cases hz
    exact iff_of_false (hne w) (hne _)
  | word => rfl

/-- Options begin with the selector of the first, and a brace follows it. -/
theorem Options.exists_selector {options : List (Text × List Element)} (h : Options w options) :
    ∃ a v b x selector es, IsSpacing a ∧ Selector v selector ∧ IsSpacing b ∧
      w = a ++ (v ++ (b ++ CodePoint.openBrace :: x)) ∧ options.head? = some (selector, es) := by
  have hchoice {w : Text} {o : Text × List Element} (h : Choice w o) (y : Text) :
      ∃ a v b x selector es, IsSpacing a ∧ Selector v selector ∧ IsSpacing b ∧
        w ++ y = a ++ (v ++ (b ++ CodePoint.openBrace :: x)) ∧ o = (selector, es) := by
    cases h with
    | intro hs _ _ _ =>
      obtain ⟨a, v, b, ha, hv, hb, rfl⟩ := hs
      exact ⟨a, v, b, _, _, _, ha, hv, hb, by simp only [List.append_assoc, List.cons_append]; rfl,
        rfl⟩
  cases h with
  | last h =>
    obtain ⟨a, v, b, x, selector, es, ha, hv, hb, hw, rfl⟩ := hchoice h []
    rw [List.append_nil] at hw
    exact ⟨a, v, b, x, selector, es, ha, hv, hb, hw, rfl⟩
  | more h _ =>
    obtain ⟨a, v, b, x, selector, es, ha, hv, hb, hw, rfl⟩ := hchoice h _
    exact ⟨a, v, b, x, selector, es, ha, hv, hb, hw, rfl⟩

theorem endsText_of_elements {nested : Bool} {es : List Element} (h : Elements w es)
    (hes : startsWithText es = false) (hr : Ends nested rest) : EndsText (w ++ rest) := by
  cases h with
  | nil => exact hr.endsText
  | text => cases hes
  | argument => exact endsText_openBrace _

theorem not_endsText_of_textUnits {t : Text} (h : TextUnits w t) (hne : t ≠ []) (rest : Text) :
    ¬EndsText (w ++ rest) := by
  cases h with
  | nil => exact absurd rfl hne
  | cons hu =>
    cases hu with
    | plain hc => simp [EndsText, hc]
    | brace | hash | doubled | codePoint =>
      rw [EndsText, List.append_assoc, List.cons_append, stops_cons]
      decide

theorem TextUnits.length_pos {t : Text} (h : TextUnits w t) (hne : t ≠ []) : 0 < w.length := by
  rw [List.length_pos_iff]
  rintro rfl
  exact not_endsText_of_textUnits h hne [] stops_nil

end Parts

end MessageExtraction.Pattern
