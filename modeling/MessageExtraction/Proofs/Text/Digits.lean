import MessageExtraction.Proofs.Number.Numerals

/-!
Digits of any base. A number that is spelled in a base, in either letter case and perhaps with zeros in
front, is read back from its digits by whatever gives the digits their values.
-/

namespace MessageExtraction.Text

/-- The digits of a number in a base up to sixteen, in small letters. -/
def digitsIn (base n : Nat) : Text := (Nat.toDigits base n).map Char.toNat

/-- A text that spells a number in a base, in either letter case and perhaps after zeros. -/
def SpellsIn (base : Nat) (ds : Text) (n : Nat) : Prop :=
  ∃ zeros, lower ds = List.replicate zeros 0x30 ++ digitsIn base n

/-- What gives the digits of a base their values, whatever their letter case. -/
structure ReadsBase (base : Nat) (value? : CodePoint → Option Nat) : Prop where
  one_lt : 1 < base
  lower_eq : ∀ c, value? (CodePoint.lower c) = value? c
  digit_eq : ∀ d < base, value? d.digitChar.toNat = some d
  lt_base : ∀ c d, value? c = some d → d < base

variable {base n : Nat} {value? : CodePoint → Option Nat} {ds : Text}

theorem ReadsBase.zero_eq (h : ReadsBase base value?) : value? 0x30 = some 0 :=
  h.digit_eq 0 (Nat.zero_lt_of_lt h.one_lt)

theorem positional?_lower (h : ∀ c, value? (CodePoint.lower c) = value? c) (t : Text) :
    positional? base value? (lower t) = positional? base value? t := by
  rw [positional?, lower, List.foldl_map]
  simp only [h]
  rfl

/-- A spelling of a number is read as the number. -/
theorem positional?_of_spellsIn (h : ReadsBase base value?) (hds : SpellsIn base ds n) :
    positional? base value? ds = some n := by
  obtain ⟨zeros, hds⟩ := hds
  rw [← positional?_lower h.lower_eq, hds, positional?_zeros_append h.zero_eq]
  exact positional?_toDigits h.one_lt h.digit_eq n

theorem SpellsIn.ne_nil (hds : SpellsIn base ds n) : ds ≠ [] := by
  rintro rfl
  obtain ⟨zeros, hds⟩ := hds
  have hdigits := (List.append_eq_nil_iff.mp hds.symm).2
  exact Nat.toDigits_ne_nil (List.map_eq_nil_iff.mp hdigits)

theorem readsBase_hexValue? : ReadsBase 16 CodePoint.hexValue? where
  one_lt := by decide
  lower_eq c := by
    unfold CodePoint.lower CodePoint.hexValue? CodePoint
    grind
  digit_eq := by decide
  lt_base c d h := by
    unfold CodePoint.hexValue? CodePoint at h
    grind

end MessageExtraction.Text

namespace MessageExtraction.Number

theorem anyDigitValue?_lower (c : CodePoint) : anyDigitValue? (CodePoint.lower c) = anyDigitValue? c := by
  unfold CodePoint.lower anyDigitValue? CodePoint.digitValue? CodePoint
  grind

theorem anyDigitValue?_digitChar : ∀ d < 16, anyDigitValue? d.digitChar.toNat = some d := by decide

theorem readsBase_digitIn? {base : Nat} (h : 1 < base) (h' : base ≤ 16) :
    Text.ReadsBase base (digitIn? base) where
  one_lt := h
  lower_eq c := by rw [digitIn?, digitIn?, anyDigitValue?_lower]
  digit_eq d hd := by
    rw [digitIn?, anyDigitValue?_digitChar d (by omega)]
    simpa using hd
  lt_base _ _ := digitIn?_lt

/-- A spelling of a number in a base is read as its digits in that base. -/
theorem digits?_of_spellsIn {base n : Nat} {ds : Text} (h : 1 < base) (h' : base ≤ 16)
    (hds : Text.SpellsIn base ds n) : digits? base ds = some n := by
  rw [digits?, if_neg (by simpa using hds.ne_nil), Text.positional?_of_spellsIn (readsBase_digitIn? h h') hds]

end MessageExtraction.Number
