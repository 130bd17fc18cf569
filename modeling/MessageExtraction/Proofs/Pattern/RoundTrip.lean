import Mathlib
import MessageExtraction.Proofs.Pattern.Reread

namespace MessageExtraction.Pattern

theorem parse_eq_ok {m : Text} {es : List Element} :
    parse m = .ok es ↔ ∃ rest, readElements false (m.length + 1) m = .ok (es, rest) := by
  rw [parse]
  split
  · rename_i es' rest h
    simp only [Except.ok.injEq, h, Prod.mk.injEq]
    constructor
    · rintro rfl
      exact ⟨rest, rfl, rfl⟩
    · rintro ⟨r, h, -⟩
      exact h
  · simp_all
  · simp_all

theorem wellFormed_of_parse {m : Text} {es : List Element} (h : parse m = .ok es) :
    WellFormed es := by
  obtain ⟨rest, h⟩ := parse_eq_ok.mp h
  exact ((readsWell _).elements h).1

/-- A pattern of parts that can be read back is read back. -/
theorem parse_print_of_isReadBack {es : List Element} (hwf : WellFormed es)
    (h : ∀ e ∈ within es, e.isReadBack = true) : parse (print es) = .ok es := by
  have hread := (readsBack ((print es).length + 1)).elements hwf h ends_nil
    (Nat.lt_succ_self _)
  rw [List.append_nil] at hread
  exact parse_eq_ok.mpr ⟨[], hread⟩

theorem weight_le_of_parse_print {es es' : List Element} (hwf : WellFormed es)
    (h : parse (print es) = .ok es') :
    weight es' ≤ weight es ∧ (weight es' = weight es → ∀ e ∈ within es, e.isReadBack = true) := by
  obtain ⟨rest, h⟩ := parse_eq_ok.mp h
  rw [← List.append_nil (print es)] at h
  exact ((shrinks _).elements hwf ends_nil h).2

/-- What was read from a message is read again from its canonical form iff no number that chooses has
an offset or a first option that looks like one, no pattern of an option begins with spacing, and no
text has a backslash but before a number sign. -/
theorem parse_print_eq_ok_iff {m : Text} {es : List Element} (h : parse m = .ok es) :
    parse (print es) = .ok es ↔ ∀ e ∈ within es, e.isReadBack = true :=
  ⟨fun hp ↦ (weight_le_of_parse_print (wellFormed_of_parse h) hp).2 rfl,
    parse_print_of_isReadBack (wellFormed_of_parse h)⟩

def nestedChoice : List Element :=
  [.choice "n" .plural 0 [("=0", [.text "none"]), ("other", [.text "\\#",
    .choice "g" .select 0 [("f", [.text "her"]), ("other", [.text "their"])]])]]

/-- A choice inside of another is read back, whatever spacing it was read from. -/
theorem nestedChoice_read_back :
    parse "\x7bn,plural,=0\x7bnone\x7dother\x7b\\#\x7bg,select,f\x7bher\x7dother\x7b their\x7d\x7d\x7d\x7d" =
      .ok nestedChoice ∧ parse (print nestedChoice) = .ok nestedChoice := by
  have h : parse "\x7bn,plural,=0\x7bnone\x7dother\x7b\\#\x7bg,select,f\x7bher\x7dother\x7b their\x7d\x7d\x7d\x7d" =
      .ok nestedChoice := by cbv
  exact ⟨h, (parse_print_eq_ok_iff h).mpr (by decide)⟩

end MessageExtraction.Pattern
