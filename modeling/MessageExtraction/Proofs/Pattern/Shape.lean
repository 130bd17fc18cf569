import MessageExtraction.Proofs.Pattern.Escapes
import MessageExtraction.Proofs.Pattern.Parts

namespace MessageExtraction

def Element.isText : Element → Bool
  | .text _ => true
  | _ => false

namespace Pattern

def startsWithText : List Element → Bool
  | e :: _ => e.isText
  | [] => false

mutual

/-- What every element that is read is like. -/
def WellFormedElement : Element → Prop
  | .text t => t ≠ []
  | .argument name => IsName name
  | .formatted name _ style => IsName name ∧ ∀ s ∈ style, IsStyle s
  | .choice name kind offset options =>
    IsName name ∧ (offset ≠ 0 → kind.takesOffset = true ∧ IsNumeral offset) ∧ options ≠ [] ∧
      WellFormedOptions options

def WellFormedOptions : List (Text × List Element) → Prop
  | [] => True
  | (selector, pattern) :: rest =>
    IsSelector selector ∧ WellFormed pattern ∧ WellFormedOptions rest

/-- What every pattern that is read is like; no two texts of it are neighbours. -/
def WellFormed : List Element → Prop
  | [] => True
  | e :: rest =>
    WellFormedElement e ∧ (e.isText = true → startsWithText rest = false) ∧ WellFormed rest

end

/-- Where elements end: at the closing brace of an option, or with the message. -/
def Ends : (nested : Bool) → Text → Prop
  | true, t => ∃ u, t = CodePoint.closeBrace :: u
  | false, t => t = []

theorem ends_closeBrace (t : Text) : Ends true (CodePoint.closeBrace :: t) := ⟨t, rfl⟩

theorem ends_nil : Ends false [] := rfl

theorem Ends.endsText {nested : Bool} {t : Text} (h : Ends nested t) : EndsText t := by
  cases nested with
  | false => exact h ▸ stops_nil
  | true =>
    obtain ⟨u, rfl⟩ := h
    exact endsText_closeBrace u

theorem readElements_of_ends {nested : Bool} {t : Text} (h : Ends nested t) (fuel : Nat) :
    readElements nested (fuel + 1) t = .ok ([], t) := by
  cases nested with
  | false =>
    obtain rfl : t = [] := h
    rfl
  | true =>
    obtain ⟨u, rfl⟩ := h
    rfl

theorem readElements_argument (nested : Bool) (fuel : Nat) (t : Text) :
    readElements nested (fuel + 1) (CodePoint.openBrace :: t) = (do
      let (e, rest) ← readArgument fuel t
      let (es, rest) ← readElements nested fuel rest
      return (e :: es, rest)) := by
  rw [readElements]

theorem readElements_text {t : Text} (h : ¬EndsText t) (nested : Bool) (fuel : Nat) :
    readElements nested (fuel + 1) t = (do
      let (s, rest) ← readText t
      let (es, rest) ← readElements nested fuel rest
      return (.text s :: es, rest)) := by
  rw [readElements]
  · rintro rfl
    exact h stops_nil
  · rintro u rfl
    exact h (endsText_closeBrace u)
  · rintro u rfl
    exact h (endsText_openBrace u)

/-- Elements are read in one of three ways, by the character that comes first. -/
theorem readElements_cases {nested : Bool} {fuel : Nat} {t rest : Text} {es : List Element}
    (h : readElements nested (fuel + 1) t = .ok (es, rest)) :
    (es = [] ∧ rest = t ∧ Ends nested t) ∨
    (∃ u v e es', t = CodePoint.openBrace :: u ∧ es = e :: es' ∧
      readArgument fuel u = .ok (e, v) ∧ readElements nested fuel v = .ok (es', rest)) ∨
    (∃ v s es', ¬EndsText t ∧ es = .text s :: es' ∧
      readText t = .ok (s, v) ∧ readElements nested fuel v = .ok (es', rest)) := by
  by_cases ht : EndsText t
  · cases t with
    | nil =>
      left
      cases nested with
      | false =>
        obtain ⟨rfl, rfl⟩ : [] = es ∧ [] = rest := by simpa [readElements] using h
        exact ⟨rfl, rfl, rfl⟩
      | true => simp [readElements] at h
    | cons c u =>
      have hc : isBrace c = true := by simpa [EndsText] using ht
      obtain rfl | rfl : c = CodePoint.openBrace ∨ c = CodePoint.closeBrace := by
        simpa [isBrace] using hc
      · right; left
        rw [readElements_argument] at h
        obtain ⟨⟨e, v⟩, he, h⟩ := bind_eq_ok.mp h
        obtain ⟨⟨es', r⟩, hes, h⟩ := bind_eq_ok.mp h
        obtain ⟨rfl, rfl⟩ : e :: es' = es ∧ r = rest := by simpa [pure, Except.pure] using h
        exact ⟨u, v, e, es', rfl, rfl, he, hes⟩
      · left
        cases nested with
        | false => simp [readElements] at h
        | true =>
          obtain ⟨rfl, rfl⟩ : [] = es ∧ _ = rest := by simpa [readElements] using h
          exact ⟨rfl, rfl, u, rfl⟩
  · right; right
    rw [readElements_text ht] at h
    obtain ⟨⟨s, v⟩, hs, h⟩ := bind_eq_ok.mp h
    obtain ⟨⟨es', r⟩, hes, h⟩ := bind_eq_ok.mp h
    obtain ⟨rfl, rfl⟩ : .text s :: es' = es ∧ r = rest := by simpa [pure, Except.pure] using h
    exact ⟨v, s, es', ht, rfl, hs, hes⟩

theorem readArgument_cases {fuel : Nat} {t rest : Text} {e : Element}
    (h : readArgument (fuel + 1) t = .ok (e, rest)) :
    (∃ u, readHead t = .ok (.whole e, u) ∧ skipSpacing u = CodePoint.closeBrace :: rest) ∨
    (∃ u v name kind offset options, readHead t = .ok (.opened name kind offset, u) ∧
      readOptions fuel u = .ok (options, v) ∧ skipSpacing v = CodePoint.closeBrace :: rest ∧
      e = .choice name kind offset options) := by
  rw [readArgument] at h
  obtain ⟨⟨head, u⟩, hhead, h⟩ := bind_eq_ok.mp h
  cases head with
  | whole e' =>
    obtain ⟨r, hr, h⟩ := bind_eq_ok.mp h
    obtain ⟨rfl, rfl⟩ : e' = e ∧ r = rest := by simpa [pure, Except.pure] using h
    exact .inl ⟨u, hhead, expect_eq_ok.mp hr⟩
  | opened name kind offset =>
    obtain ⟨⟨options, v⟩, ho, h⟩ := bind_eq_ok.mp h
    obtain ⟨r, hr, h⟩ := bind_eq_ok.mp h
    obtain ⟨rfl, rfl⟩ : .choice name kind offset options = e ∧ r = rest := by
      simpa [pure, Except.pure] using h
    exact .inr ⟨u, v, name, kind, offset, options, hhead, ho, expect_eq_ok.mp hr, rfl⟩

/-- An option is read with its braces; it is the last if a closing brace follows. -/
theorem readOptions_cases {fuel : Nat} {t rest : Text} {options : List (Text × List Element)}
    (h : readOptions (fuel + 1) t = .ok (options, rest)) :
    ∃ u v w selector pattern more, options = (selector, pattern) :: more ∧
      readSelector (skipSpacing t) = .ok (selector, u) ∧
      skipSpacing u = CodePoint.openBrace :: v ∧
      readElements true fuel (skipSpacing v) = .ok (pattern, CodePoint.closeBrace :: w) ∧
      (more = [] ∧ rest = skipSpacing w ∧ (∃ x, rest = CodePoint.closeBrace :: x) ∨
        readOptions fuel w = .ok (more, rest)) := by
  rw [readOptions] at h
  obtain ⟨⟨selector, u⟩, hs, h⟩ := bind_eq_ok.mp h
  obtain ⟨v, hv, h⟩ := bind_eq_ok.mp h
  obtain ⟨⟨pattern, r⟩, hp, h⟩ := bind_eq_ok.mp h
  obtain ⟨w, hw, h⟩ := bind_eq_ok.mp h
  rw [expect_eq_ok] at hw
  rw [hw] at hp
  split at h
  · rename_i x hx
    obtain ⟨rfl, rfl⟩ : [(selector, pattern)] = options ∧ _ = rest := by
      simpa [pure, Except.pure] using h
    exact ⟨u, v, w, selector, pattern, [], rfl, hs, expect_eq_ok.mp hv, hp,
      .inl ⟨rfl, hx.symm, x, rfl⟩⟩
  · obtain ⟨⟨more, r⟩, hmore, h⟩ := bind_eq_ok.mp h
    obtain ⟨rfl, rfl⟩ : (selector, pattern) :: more = options ∧ r = rest := by
      simpa [pure, Except.pure] using h
    exact ⟨u, v, w, selector, pattern, more, rfl, hs, expect_eq_ok.mp hv, hp, .inr hmore⟩

def Head.WellFormed : Head → Prop
  | .whole e => e.isText = false ∧ WellFormedElement e
  | .opened name kind offset =>
    IsName name ∧ (offset ≠ 0 → kind.takesOffset = true ∧ IsNumeral offset)

theorem offset_of_readOffset {kind : ChoiceKind} {t rest : Text} {offset : Nat}
    (h : readOffset kind t = .ok (offset, rest)) (hne : offset ≠ 0) :
    kind.takesOffset = true ∧ IsNumeral offset := by
  rw [readOffset] at h
  split at h
  · rename_i hk
    refine ⟨hk, ?_⟩
    split at h
    · obtain ⟨u, -, h⟩ := bind_eq_ok.mp h
      exact length_ofNat_le_of_readNumber h
    · obtain ⟨rfl, -⟩ : 0 = offset ∧ _ = rest := by simpa using h
      exact absurd rfl hne
  · obtain ⟨rfl, -⟩ : 0 = offset ∧ _ = rest := by simpa using h
    exact absurd rfl hne

theorem wellFormed_of_readFormat {name t rest : Text} {head : Head} (hname : IsName name)
    (h : readFormat name t = .ok (head, rest)) : head.WellFormed := by
  simp only [readFormat] at h
  split at h
  · obtain ⟨⟨style, r⟩, hs, h⟩ := bind_eq_ok.mp h
    obtain ⟨rfl, -⟩ : _ = head ∧ r = rest := by simpa [pure, Except.pure] using h
    exact ⟨rfl, by simpa only [WellFormedElement] using ⟨hname, isStyle_of_readStyle hs⟩⟩
  · obtain ⟨u, -, h⟩ := bind_eq_ok.mp h
    obtain ⟨⟨offset, r⟩, ho, h⟩ := bind_eq_ok.mp h
    obtain ⟨rfl, -⟩ : _ = head ∧ r = rest := by simpa [pure, Except.pure] using h
    exact ⟨hname, offset_of_readOffset ho⟩
  · simp at h

theorem wellFormed_of_readHead {t rest : Text} {head : Head}
    (h : readHead t = .ok (head, rest)) : head.WellFormed := by
  rw [readHead] at h
  obtain ⟨⟨name, r⟩, hn, h⟩ := bind_eq_ok.mp h
  have hname := isName_of_readName hn
  dsimp only at h
  split at h
  · exact wellFormed_of_readFormat hname h
  · obtain ⟨rfl, -⟩ : _ = head ∧ _ = rest := by simpa [pure, Except.pure] using h
    exact ⟨rfl, by simpa only [WellFormedElement] using hname⟩

/-- What is read with some fuel is well formed, and reading stops where it should. -/
structure ReadsWell (fuel : Nat) : Prop where
  elements : ∀ {nested t es rest}, readElements nested fuel t = .ok (es, rest) →
    WellFormed es ∧ Ends nested rest ∧ (startsWithText es = true → ¬EndsText t)
  argument : ∀ {t e rest}, readArgument fuel t = .ok (e, rest) →
    e.isText = false ∧ WellFormedElement e
  options : ∀ {t options rest}, readOptions fuel t = .ok (options, rest) →
    options ≠ [] ∧ WellFormedOptions options

theorem readsWell (fuel : Nat) : ReadsWell fuel := by
  induction fuel with
  | zero =>
    constructor <;> intros <;> simp_all [readElements, readArgument, readOptions]
  | succ fuel ih =>
    constructor
    · intro nested t es rest h
      obtain ⟨rfl, rfl, he⟩ | ⟨u, v, e, es, rfl, rfl, he, hes⟩ | ⟨v, s, es, ht, rfl, hs, hes⟩ :=
        readElements_cases h
      · exact ⟨by simp only [WellFormed], he, by simp [startsWithText]⟩
      · obtain ⟨hnt, hwf⟩ := ih.argument he
        obtain ⟨hes, hend, -⟩ := ih.elements hes
        refine ⟨?_, hend, by simp [startsWithText, hnt]⟩
        simpa only [WellFormed] using ⟨hwf, by simp [hnt], hes⟩
      · obtain ⟨hend, hne⟩ := endsText_of_readText hs
        obtain ⟨hes, hends, hstart⟩ := ih.elements hes
        refine ⟨?_, hends, fun _ ↦ ht⟩
        have hnext : startsWithText es = false := by
          rw [← Bool.not_eq_true]
          exact fun hes ↦ hstart hes hend
        simpa only [WellFormed, WellFormedElement] using ⟨fun he ↦ ht (hne he), fun _ ↦ hnext, hes⟩
    · intro t e rest h
      obtain ⟨u, hh, -⟩ | ⟨u, v, name, kind, offset, options, hh, ho, -, rfl⟩ :=
        readArgument_cases h
      · exact wellFormed_of_readHead hh
      · obtain ⟨hname, hoffset⟩ := wellFormed_of_readHead hh
        obtain ⟨hne, hwf⟩ := ih.options ho
        exact ⟨rfl, by simpa only [WellFormedElement] using ⟨hname, hoffset, hne, hwf⟩⟩
    · intro t options rest h
      obtain ⟨u, v, w, selector, pattern, more, rfl, hs, -, hp, hmore⟩ := readOptions_cases h
      have hwf : WellFormedOptions more := by
        rcases hmore with ⟨rfl, -⟩ | hmore
        · simp only [WellFormedOptions]
        · exact (ih.options hmore).2
      refine ⟨by simp, ?_⟩
      simpa only [WellFormedOptions] using
        ⟨isSelector_of_readSelector hs, (ih.elements hp).1, hwf⟩

end Pattern

end MessageExtraction
