import MessageExtraction.Proofs.Pattern.RoundTrip

namespace MessageExtraction.Pattern

/-- The canonical form of a message. -/
def canonicalForm (m : Text) : Except Error Text := (parse m).map print

theorem canonicalForm_eq_ok {m t : Text} :
    canonicalForm m = .ok t ↔ ∃ es, parse m = .ok es ∧ print es = t := by
  rw [canonicalForm]
  cases parse m <;> simp [Except.map]

theorem length_inBraces (t : Text) : (inBraces t).length = t.length + 2 := by
  simp [inBraces]

mutual

/-- Offsets are all that can make a canonical form longer than the weight of its pattern. -/
theorem length_printElement : ∀ e : Element, weightElement e ≤ (printElement e).length ∧
    (WellFormedElement e → (∀ x ∈ withinElement e, x.isReadBack = true) →
      (printElement e).length = weightElement e)
  | .text t => ⟨le_rfl, fun _ _ ↦ rfl⟩
  | .argument name => by
    have h : (printElement (.argument name)).length = weightElement (.argument name) := by
      simp only [printElement, weightElement, length_inBraces]
    exact ⟨h.ge, fun _ _ ↦ h⟩
  | .formatted name kind style => by
    have h : (printElement (.formatted name kind style)).length =
        weightElement (.formatted name kind style) := by
      simp only [printElement, weightElement, length_inBraces, separator, List.length_append,
        List.length_cons, List.length_nil]
      omega
    exact ⟨h.ge, fun _ _ ↦ h⟩
  | .choice name kind offset options => by
    obtain ⟨hle, heq⟩ := length_printOptions options
    simp only [printElement, weightElement, length_inBraces, separator, List.length_append,
      List.length_cons, List.length_nil]
    refine ⟨by omega, fun hwf hrb ↦ ?_⟩
    simp only [WellFormedElement] at hwf
    obtain ⟨-, hoffset, hne, hoptions⟩ := hwf
    rw [withinElement, List.forall_mem_cons] at hrb
    have hzero : offset = 0 := offset_eq_zero_of_isReadBack hrb.1 hoffset hne
    rw [heq hoptions hrb.2, hzero, printOffset, if_pos rfl, List.length_nil]
    omega

theorem length_printOptions : ∀ options : List (Text × List Element),
    weightOptions options ≤ (printOptions options).length ∧
    (WellFormedOptions options → (∀ x ∈ withinOptions options, x.isReadBack = true) →
      (printOptions options).length = weightOptions options)
  | [] => ⟨le_rfl, fun _ _ ↦ rfl⟩
  | (selector, pattern) :: more => by
    obtain ⟨hle, heq⟩ := length_print pattern
    obtain ⟨hle', heq'⟩ := length_printOptions more
    simp only [printOptions, weightOptions, length_inBraces, List.length_append, List.length_cons]
    refine ⟨by omega, fun hwf hrb ↦ ?_⟩
    simp only [WellFormedOptions] at hwf
    rw [withinOptions, List.forall_mem_append] at hrb
    rw [heq hwf.2.1 hrb.1, heq' hwf.2.2 hrb.2]
    omega

theorem length_print : ∀ es : List Element, weight es ≤ (print es).length ∧
    (WellFormed es → (∀ x ∈ within es, x.isReadBack = true) → (print es).length = weight es)
  | [] => ⟨le_rfl, fun _ _ ↦ rfl⟩
  | e :: es => by
    obtain ⟨hle, heq⟩ := length_printElement e
    obtain ⟨hle', heq'⟩ := length_print es
    simp only [print, weight, List.length_append]
    refine ⟨by omega, fun hwf hrb ↦ ?_⟩
    simp only [WellFormed] at hwf
    rw [within, List.forall_mem_append] at hrb
    rw [heq hwf.1 hrb.1, heq' hwf.2.2 hrb.2]

end

/-- A canonical form is its own iff what it was printed from can be read back. -/
theorem canonicalForm_print_eq_ok_iff {m : Text} {es : List Element} (h : parse m = .ok es) :
    canonicalForm (print es) = .ok (print es) ↔ ∀ e ∈ within es, e.isReadBack = true := by
  have hwf := wellFormed_of_parse h
  constructor
  · intro hc
    obtain ⟨es', hes', hprint⟩ := canonicalForm_eq_ok.mp hc
    obtain ⟨hle, heq⟩ := weight_le_of_parse_print hwf hes'
    -- What is read from the canonical form prints as it, so that it can be read back.
    have hself : parse (print es') = .ok es' := by rw [hprint, hes']
    have hwf' := wellFormed_of_parse hes'
    have hrb' := (weight_le_of_parse_print hwf' hself).2 rfl
    have hlen := (length_print es').2 hwf' hrb'
    have hlen' := (length_print es).1
    rw [hprint] at hlen
    exact heq (by omega)
  · intro hrb
    exact canonicalForm_eq_ok.mpr ⟨es, parse_print_of_isReadBack hwf hrb, rfl⟩

end MessageExtraction.Pattern
