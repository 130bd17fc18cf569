import MessageExtraction.Json.Reader
import MessageExtraction.Proofs.Json.Grammar

/-!
Numbers, strings and spacing as the reader takes them: each is read from what it is put into words
as, whatever follows it.
-/

namespace MessageExtraction.Json

open Number Text

/-- What stands after a number that is read as far as it goes. -/
def EndsNumber (t : Text) : Prop :=
  ∀ c ∈ t.head?, CodePoint.isDigit c = false ∧ c ≠ CodePoint.period ∧ c ≠ 0x65 ∧ c ≠ 0x45

theorem EndsNumber.endsDigits {t : Text} (h : EndsNumber t) : EndsDigits t := fun c hc ↦ (h c hc).1

theorem endsNumber_nil : EndsNumber [] := by
  rintro c ⟨⟩

theorem endsNumber_cons {c : CodePoint} {t : Text} (hc : CodePoint.isDigit c = false ∧
    c ≠ CodePoint.period ∧ c ≠ 0x65 ∧ c ≠ 0x45) : EndsNumber (c :: t) := by
  rintro d ⟨⟩
  exact hc

theorem spanDigits_append {ds rest : Text} (hds : ∀ c ∈ ds, CodePoint.isDigit c = true)
    (hrest : EndsDigits rest) : spanDigits (ds ++ rest) = (ds, rest) := by
  rw [spanDigits, List.span_eq_takeWhile_dropWhile, takeWhile_digits hds hrest,
    dropWhile_digits hds hrest]

theorem spanExponent_append (n : Numeral) {rest : Text} (hrest : EndsNumber rest) :
    spanExponent (n.power ++ rest) = (n.power, rest) := by
  obtain h | ⟨sign, ds, h, hsign, hds⟩ := n.power_eq
  · rw [h, List.nil_append]
    cases rest with
    | nil => rfl
    | cons c rest =>
      obtain ⟨-, -, he, hE⟩ := hrest c rfl
      rw [spanExponent]
      · exact fun _ heq ↦ he (List.cons.inj heq).1
      · exact fun _ heq ↦ hE (List.cons.inj heq).1
  · have hspan := spanDigits_append hds.2 hrest.endsDigits
    obtain ⟨d, ds, rfl⟩ := List.exists_cons_of_ne_nil hds.1
    have hd := hds.2 d List.mem_cons_self
    rw [h, List.cons_append, List.append_assoc]
    obtain rfl | rfl | rfl := hsign
    · rw [List.nil_append, spanExponent, hspan]
      · rfl
      · rintro more heq
        rw [(List.cons.inj heq).1] at hd
        cases hd
      · rintro more heq
        rw [(List.cons.inj heq).1] at hd
        cases hd
    · rw [List.singleton_append, spanExponent, hspan]
      rfl
    · rw [List.singleton_append, spanExponent, hspan]
      rfl

theorem spanFraction_append (n : Numeral) {rest : Text} (hrest : EndsNumber rest) :
    spanFraction (n.fraction ++ (n.power ++ rest)) = (n.fraction, n.power ++ rest) := by
  have hends := n.endsDigits_power_append hrest.endsDigits
  obtain h | ⟨ds, h, hds⟩ := n.fraction_eq
  · rw [h, List.nil_append, spanFraction]
    intro more heq
    obtain hp | ⟨sign, ds, hp, -⟩ := n.power_eq
    · rw [hp, List.nil_append] at heq
      exact (hrest CodePoint.period (by rw [heq]; rfl)).2.1 rfl
    · rw [hp] at heq
      cases heq
  · have hspan := spanDigits_append hds.2 hends
    obtain ⟨d, ds, rfl⟩ := List.exists_cons_of_ne_nil hds.1
    rw [h, List.cons_append, spanFraction, hspan]

variable {negative : Bool} {rest : Text}

/-- A numeral is taken as a whole. -/
theorem readNumber_text (n : Numeral) (hrest : EndsNumber rest) :
    readNumber negative (n.text ++ rest) =
      if n.fraction.isEmpty && n.power.isEmpty then
        if digitLimit < n.whole.length then .error (.tooManyDigits n.whole.length)
        else
          let k := (positional? 10 CodePoint.digitValue? n.whole).getD 0
          .ok (.int (if negative then -(k : Int) else k), rest)
      else
        (fraction? n.text).elim (.error .malformed) fun d ↦
          .ok (.float (Binary.signed negative d.toFloat), rest) := by
  have hends := n.endsDigits_fraction_append hrest.endsDigits
  have htext : n.text ++ rest = n.whole ++ (n.fraction ++ (n.power ++ rest)) := by
    rw [Numeral.text, List.append_assoc, List.append_assoc]
  have hne : n.whole.isEmpty = false := by
    simpa using n.isDigits_whole.1
  rw [htext, Numeral.text]
  unfold readNumber
  split
  rename_i whole after hspan
  -- a zero is taken by itself and other digits as far as they go, which is the same here
  obtain ⟨rfl, rfl⟩ : whole = n.whole ∧ after = n.fraction ++ (n.power ++ rest) := by
    obtain h | h := n.whole_eq_or
    · rw [h] at hspan ⊢
      exact ⟨(congrArg Prod.fst hspan).symm, (congrArg Prod.snd hspan).symm⟩
    · split at hspan
      · rename_i more heq
        refine absurd ?_ h
        rw [← List.head?_append_of_ne_nil _ n.isDigits_whole.1, heq]
        rfl
      · rw [spanDigits_append n.isDigits_whole.2 hends] at hspan
        exact ⟨(congrArg Prod.fst hspan).symm, (congrArg Prod.snd hspan).symm⟩
  simp only [spanFraction_append n hrest, spanExponent_append n hrest, hne, Bool.false_eq_true,
    if_false]
  cases fraction? (n.whole ++ n.fraction ++ n.power) <;> rfl

theorem readNumber_double {n : Numeral} {d : Decimal} (hn : n.IsDouble)
    (hd : fraction? n.text = some d) (hrest : EndsNumber rest) :
    readNumber negative (n.text ++ rest) = .ok (.float (Binary.signed negative d.toFloat), rest) := by
  have hempty : (n.fraction.isEmpty && n.power.isEmpty) = false := by
    obtain h | h := hn <;> simp [h]
  rw [readNumber_text n hrest, hempty, hd]
  rfl

theorem readNumber_ofNat {k : Nat} (hk : (ofNat k).length ≤ digitLimit) (hrest : EndsNumber rest) :
    readNumber negative (ofNat k ++ rest) = .ok (.int (withSign negative k), rest) := by
  have hvalue : positional? 10 CodePoint.digitValue? (ofNat k) = some k :=
    positional?_ofNat (by decide) k
  rw [← Numeral.text_ofNat, readNumber_text _ hrest]
  simp [Numeral.ofNat, not_lt.mpr hk, hvalue, withSign]

/-- A word that begins with no digit is no beginning of a number. -/
theorem word?_digit {c : CodePoint} (hc : CodePoint.isDigit c = true) (word : String) (t : Text)
    {d : CodePoint} {ds : Text} (hword : ofString word = d :: ds)
    (hd : CodePoint.isDigit d = false) : word? word (c :: t) = none := by
  rw [word?, hword, dropBeginning?, if_neg]
  rintro rfl
  rw [hc] at hd
  cases hd

theorem readScalar_digit {c : CodePoint} (hc : CodePoint.isDigit c = true) (t : Text) :
    readScalar (c :: t) = readNumber false (c :: t) := by
  unfold readScalar
  rw [word?_digit hc "null" t rfl rfl, word?_digit hc "true" t rfl rfl,
    word?_digit hc "false" t rfl rfl, word?_digit hc "NaN" t rfl rfl,
    word?_digit hc "Infinity" t rfl rfl, word?_digit hc "-Infinity" t rfl rfl]
  dsimp only
  split
  · rename_i heq
    rw [(List.cons.inj heq).1] at hc
    cases hc
  · rfl

theorem readScalar_negative {c : CodePoint} (hc : CodePoint.isDigit c = true) (t : Text) :
    readScalar (CodePoint.hyphen :: c :: t) = readNumber true (c :: t) := by
  have hinfinity : word? "-Infinity" (CodePoint.hyphen :: c :: t) = none :=
    word?_digit hc "Infinity" t rfl rfl
  unfold readScalar
  rw [hinfinity]
  rfl

theorem readScalar_signed {t : Text} (ht : ∃ c ∈ t.head?, CodePoint.isDigit c = true) :
    readScalar ((if negative then [CodePoint.hyphen] else []) ++ t) = readNumber negative t := by
  obtain ⟨c, hc, hdigit⟩ := ht
  obtain ⟨t, rfl⟩ := List.head?_eq_some_iff.mp hc
  cases negative with
  | true => exact readScalar_negative hdigit t
  | false => exact readScalar_digit hdigit t

theorem endsNumber_lineBreak_append (layout : Layout) (level : Nat) (h : EndsNumber rest) :
    EndsNumber (lineBreak layout level ++ rest) := by
  cases layout with
  | inline => exact h
  | indented width => exact endsNumber_cons (by decide)

theorem skipSpacing_of_not {c : CodePoint} (h : isSpacing c = false) (t : Text) :
    skipSpacing (c :: t) = c :: t := by
  rw [skipSpacing, List.dropWhile_cons_of_neg]
  simp [h]

theorem skipSpacing_comma (t : Text) :
    skipSpacing (CodePoint.comma :: t) = CodePoint.comma :: t := rfl

theorem skipSpacing_append {spacing : Text} (h : IsSpacing spacing) (t : Text) :
    skipSpacing (spacing ++ t) = skipSpacing t := by
  have hall : ∀ c ∈ [CodePoint.space, CodePoint.tab, CodePoint.lineFeed, CodePoint.carriageReturn],
      isSpacing c = true := by decide
  exact List.dropWhile_append_of_pos fun c hc ↦ hall c (h c hc)

theorem skipSpacing_lineBreak (layout : Layout) (level : Nat) (t : Text) :
    skipSpacing (lineBreak layout level ++ t) = skipSpacing t :=
  skipSpacing_append (isSpacing_lineBreak layout level) t

section Strings

theorem hexUnit?_append {l : Text} {n : Nat} (h : hexUnit? l = some (n, [])) (t : Text) :
    hexUnit? (l ++ t) = some (n, t) := by
  unfold hexUnit? at h
  split at h
  · rename_i a b c d rest
    obtain ⟨k, hk, heq⟩ := Option.map_eq_some_iff.mp h
    obtain ⟨rfl, rfl⟩ := Prod.mk.inj heq
    rw [List.cons_append, List.cons_append, List.cons_append, List.cons_append, List.nil_append,
      hexUnit?, hk]
    rfl
  · cases h

theorem escape?_control {c : Nat} (hc : c < 0x20) (t : Text) :
    escape? (CodePoint.letterU :: (padLeft 4 0x30 (ofNatHex c) ++ t)) = some (c, t) := by
  have hdigits : ∀ c < 0x20, hexUnit? (padLeft 4 0x30 (ofNatHex c)) = some (c, []) := by decide
  have hlow : ¬(0xD800 ≤ c ∧ c ≤ 0xDBFF) := by omega
  rw [escape?, hexUnit?_append (hdigits c hc)]
  exact if_neg hlow

/-- A character in a string is read as itself, escaped or not. -/
theorem readString_escapedPoint (c : CodePoint) (fuel : Nat) (t : Text) :
    readString (fuel + 1) (escapedPoint c ++ t) = do
      let (cs, rest) ← readString fuel t
      return (c :: cs, rest) := by
  unfold escapedPoint
  iterate 7
    split
    · rename_i h
      rw [h]
      rfl
  split
  · rename_i hc
    have hescape := escape?_control hc t
    change readString (fuel + 1) (CodePoint.backslash :: CodePoint.letterU ::
      (padLeft 4 0x30 (ofNatHex c) ++ t)) = _
    rw [readString, hescape]
  · rename_i hquote hbackslash _ _ _ _ _ hc
    rw [List.singleton_append, readString, if_neg hc]
    · exact hquote
    · exact hbackslash

theorem length_escapedPoint_pos (c : CodePoint) : 0 < (escapedPoint c).length := by
  unfold escapedPoint
  iterate 7
    split
    · decide
  split
  · rw [List.length_append]
    exact Nat.add_pos_left (by decide) _
  · exact Nat.one_pos

/-- The characters of a string are read up to its closing quote. -/
theorem readString_flatMap (s : Text) {fuel : Nat}
    (hfuel : (s.flatMap escapedPoint).length < fuel) :
    readString fuel (s.flatMap escapedPoint ++ CodePoint.doubleQuote :: rest) = .ok (s, rest) := by
  induction s generalizing fuel with
  | nil =>
    obtain ⟨fuel, rfl⟩ := Nat.exists_eq_succ_of_ne_zero (by omega : fuel ≠ 0)
    rfl
  | cons c s ih =>
    obtain ⟨fuel, rfl⟩ := Nat.exists_eq_succ_of_ne_zero (by omega : fuel ≠ 0)
    have hc := length_escapedPoint_pos c
    rw [List.flatMap_cons, List.length_append] at hfuel
    rw [List.flatMap_cons, List.append_assoc, readString_escapedPoint, ih (by omega)]
    rfl

end Strings

section Scalars

variable {fuel : Nat}

theorem readValue_scalar {c : CodePoint} (hc : c ≠ CodePoint.doubleQuote ∧
    c ≠ CodePoint.openBracket ∧ c ≠ CodePoint.openBrace) (t : Text) :
    readValue (fuel + 1) (c :: t) = readScalar (c :: t) := by
  rw [readValue]
  · exact fun _ heq ↦ hc.1 (List.cons.inj heq).1
  · exact fun _ heq ↦ hc.2.1 (List.cons.inj heq).1
  · exact fun _ heq ↦ hc.2.2 (List.cons.inj heq).1

theorem readValue_signed {t : Text} (ht : ∃ c ∈ t.head?, CodePoint.isDigit c = true) :
    readValue (fuel + 1) ((if negative then [CodePoint.hyphen] else []) ++ t) =
      readNumber negative t := by
  rw [← readScalar_signed ht]
  cases negative with
  | true => exact readValue_scalar (by decide) t
  | false =>
    obtain ⟨c, hc, hdigit⟩ := ht
    obtain ⟨t, rfl⟩ := List.head?_eq_some_iff.mp hc
    refine readValue_scalar ⟨?_, ?_, ?_⟩ t <;> rintro rfl <;> cases hdigit

theorem exists_digit_append {t : Text} (ht : IsDigits t) (rest : Text) :
    ∃ c ∈ (t ++ rest).head?, CodePoint.isDigit c = true := by
  obtain ⟨c, t, rfl⟩ := List.exists_cons_of_ne_nil ht.1
  exact ⟨c, rfl, ht.2 c List.mem_cons_self⟩

theorem readValue_integerText {n : Int} {t : Text} (h : Value.integerText n = .ok t)
    (hrest : EndsNumber rest) : readValue (fuel + 1) (t ++ rest) = .ok (.int n, rest) := by
  obtain ⟨hlength, rfl⟩ := integerText_eq_ok_iff.mp h
  rw [List.append_assoc, readValue_signed (exists_digit_append (isDigits_ofNat _) rest),
    readNumber_ofNat hlength hrest]
  by_cases hn : n < 0
  · rw [decide_eq_true hn, withSign, if_pos rfl]
    congr 3
    omega
  · rw [decide_eq_false hn, withSign, if_neg Bool.false_ne_true]
    congr 3
    omega

theorem exists_digit_text (n : Numeral) (rest : Text) :
    ∃ c ∈ (n.text ++ rest).head?, CodePoint.isDigit c = true := by
  rw [Numeral.text, List.append_assoc, List.append_assoc]
  exact exists_digit_append n.isDigits_whole _

/-- A double that is a number is read back. -/
theorem readValue_written {x : Float} (hx : Binary.isNaN x = false) (hrest : EndsNumber rest) :
    readValue (fuel + 1) (written numberFormat x ++ rest) = .ok (.float x, rest) := by
  cases h : Binary.ofFloat x with
  | nan =>
    rw [Binary.isNaN, h] at hx
    cases hx
  | infinite negative =>
    rw [written, h, Binary.eq_of_infinite h]
    cases negative with
    | true => exact readValue_scalar (by decide) _
    | false => exact readValue_scalar (by decide) _
  | finite negative m e =>
    obtain ⟨n, hn, hdouble, d, hd, hvalue⟩ := @written_finite numberFormat rfl x negative m e h
    rw [hn, List.append_assoc, readValue_signed (exists_digit_text n rest),
      readNumber_double hdouble hd hrest, hvalue]

end Scalars

end MessageExtraction.Json
