import MessageExtraction.Pattern.Parser
import MessageExtraction.Pattern.Printer
import MessageExtraction.Proofs.Number.Decimal
import MessageExtraction.Proofs.Result
import Mathlib.Data.List.TakeWhile

namespace MessageExtraction

theorem Text.dropBeginning?_eq_some {w t rest : Text} :
    dropBeginning? w t = some rest ↔ t = w ++ rest := by
  induction w, t using dropBeginning?.induct with
  | case1 t => simp [dropBeginning?]
  | case2 => simp [dropBeginning?]
  | case3 c cs ds ih => simp [dropBeginning?, ih]
  | case4 c cs d ds hne => simp [dropBeginning?, hne, Ne.symm hne]

/-- A beginning of a text that lacks a character ends before its first occurrence. -/
theorem Text.append_eq_append_cons {w rest s t : Text} {c : CodePoint} (hc : c ∉ w)
    (h : w ++ rest = s ++ c :: t) : ∃ z, s = w ++ z ∧ rest = z ++ c :: t := by
  rcases List.append_eq_append_iff.mp h with ⟨z, hs, hr⟩ | ⟨z, hw, hr⟩
  · exact ⟨z, hs, hr⟩
  · cases z with
    | nil => exact ⟨[], by simpa using hw.symm, by simpa using hr.symm⟩
    | cons d z =>
      obtain ⟨rfl, -⟩ : c = d ∧ t = z ++ rest := by simpa using hr
      exact absurd (by simp [hw]) hc

namespace Pattern

open Text

/-- A text that cannot go on with a run of characters of a class. -/
def Stops (p : CodePoint → Bool) (t : Text) : Prop := ∀ c ∈ t.head?, p c = false

variable {p : CodePoint → Bool}

theorem stops_nil : Stops p [] := by simp [Stops]

@[simp] theorem stops_cons {c : CodePoint} {t : Text} : Stops p (c :: t) ↔ p c = false := by
  simp [Stops]

theorem takeWhile_of_stops {t : Text} (h : Stops p t) : t.takeWhile p = [] := by
  cases t with
  | nil => rfl
  | cons c t => rw [List.takeWhile_cons_of_neg (by simp [stops_cons.mp h])]

theorem dropWhile_of_stops {t : Text} (h : Stops p t) : t.dropWhile p = t := by
  cases t with
  | nil => rfl
  | cons c t => rw [List.dropWhile_cons_of_neg (by simp [stops_cons.mp h])]

theorem stops_dropWhile (t : Text) : Stops p (t.dropWhile p) := by
  induction t with
  | nil => exact stops_nil
  | cons c t ih =>
    rw [List.dropWhile_cons]
    split
    · exact ih
    · simpa using ‹¬p c = true›

theorem takeWhile_append_of_stops {w t : Text} (hw : ∀ c ∈ w, p c = true) (ht : Stops p t) :
    (w ++ t).takeWhile p = w := by
  rw [List.takeWhile_append_of_pos hw, takeWhile_of_stops ht, List.append_nil]

theorem dropWhile_append_of_stops {w t : Text} (hw : ∀ c ∈ w, p c = true) (ht : Stops p t) :
    (w ++ t).dropWhile p = t := by
  rw [List.dropWhile_append_of_pos hw, dropWhile_of_stops ht]

theorem skipSpacing_of_stops {t : Text} (h : Stops isSpacing t) : skipSpacing t = t :=
  dropWhile_of_stops h

theorem skipSpacing_space (t : Text) : skipSpacing (CodePoint.space :: t) = skipSpacing t := rfl

theorem skipSpacing_idem (t : Text) : skipSpacing (skipSpacing t) = skipSpacing t :=
  skipSpacing_of_stops (stops_dropWhile t)

theorem expect_eq_ok {c : CodePoint} {t rest : Text} :
    expect c t = .ok rest ↔ t = c :: rest := by
  cases t with
  | nil => simp [expect]
  | cons d t =>
    rw [expect]
    split <;> simp_all

@[simp] theorem expect_cons (c : CodePoint) (t : Text) : expect c (c :: t) = .ok t :=
  expect_eq_ok.mpr rfl

/-- A run is read iff it is not empty and as long as it can be. -/
theorem readRun_eq_ok {what : Expectation} {t w rest : Text} :
    readRun p what t = .ok (w, rest) ↔
      w ≠ [] ∧ (∀ c ∈ w, p c = true) ∧ Stops p rest ∧ t = w ++ rest := by
  constructor
  · intro h
    rw [readRun] at h
    split at h
    · simp at h
    · rename_i hne
      obtain ⟨rfl, rfl⟩ : t.takeWhile p = w ∧ t.dropWhile p = rest := by simpa using h
      exact ⟨by simpa using hne, fun c hc ↦ List.mem_takeWhile_imp hc, stops_dropWhile t,
        List.takeWhile_append_dropWhile.symm⟩
  · rintro ⟨hne, hw, ht, rfl⟩
    rw [readRun, takeWhile_append_of_stops hw ht, dropWhile_append_of_stops hw ht,
      if_neg (by simpa using hne)]

theorem readRun_error_of_stops {what : Expectation} {t : Text} (h : Stops p t) :
    readRun p what t = .error (.expected what t) := by
  rw [readRun, takeWhile_of_stops h]
  rfl

/-- A number is read iff it has as many digits as there can be and they spell one. -/
theorem readNumber_eq_ok {t rest : Text} {n : Nat} :
    readNumber t = .ok (n, rest) ↔
      ∃ w, readRun isAnyDigit .number t = .ok (w, rest) ∧ Number.decimal w = .ok n := by
  rw [readNumber, bind_eq_ok]
  constructor
  · rintro ⟨⟨w, r⟩, hw, h⟩
    cases hn : Number.decimal w with
    | ok m =>
      obtain ⟨rfl, rfl⟩ : m = n ∧ r = rest := by simpa [hn, pure, Except.pure] using h
      exact ⟨w, hw, hn⟩
    | error f => simp [hn, throw, throwThe, MonadExceptOf.throw] at h
  · rintro ⟨w, hw, hn⟩
    exact ⟨(w, rest), hw, by simp [hn, pure, Except.pure]⟩

theorem readNumber_ofNat {n : Nat} (hn : (ofNat n).length ≤ digitLimit) {t : Text}
    (ht : Stops isAnyDigit t) : readNumber (ofNat n ++ t) = .ok (n, t) :=
  readNumber_eq_ok.mpr ⟨ofNat n, readRun_eq_ok.mpr
    ⟨ofNat_ne_nil n, isAnyDigit_of_mem_ofNat, ht, rfl⟩, Number.decimal_ofNat hn⟩

theorem length_ofNat_le_of_readNumber {t rest : Text} {n : Nat}
    (h : readNumber t = .ok (n, rest)) : (ofNat n).length ≤ digitLimit := by
  obtain ⟨w, -, hn⟩ := readNumber_eq_ok.mp h
  exact Number.length_ofNat_le_of_decimal hn

end Pattern

end MessageExtraction
