import MessageExtraction.Number.Literal
import Mathlib.Algebra.Group.Nat.Defs
import Mathlib.Data.List.Induction

namespace MessageExtraction

namespace Text

theorem digitChar_toNat {d : Nat} (h : d < 10) : d.digitChar.toNat = 0x30 + d := by
  have hall : ∀ d, d < 10 → d.digitChar.toNat = 0x30 + d := by decide
  exact hall d h

theorem ofNat_of_lt {n : Nat} (h : n < 10) : ofNat n = [0x30 + n] := by
  rw [ofNat, Nat.toDigits_of_lt_base h, List.map_singleton, digitChar_toNat h]

theorem ofNat_of_le {n : Nat} (h : 10 ≤ n) : ofNat n = ofNat (n / 10) ++ [0x30 + n % 10] := by
  rw [ofNat, Nat.toDigits_of_base_le (by decide) h, List.map_append, List.map_singleton,
    digitChar_toNat (Nat.mod_lt n (by decide))]
  rfl

theorem ofNat_ne_nil (n : Nat) : ofNat n ≠ [] := by simp [ofNat]

theorem exists_digit_of_mem_ofNat {n : Nat} {c : CodePoint} (h : c ∈ ofNat n) :
    ∃ d : Nat, d < 10 ∧ c = 0x30 + d := by
  induction n using Nat.strongRecOn with
  | ind n ih =>
    by_cases hn : n < 10
    · rw [ofNat_of_lt hn, List.mem_singleton] at h
      exact ⟨n, hn, h⟩
    · rw [ofNat_of_le (by omega), List.mem_append, List.mem_singleton] at h
      rcases h with h | h
      · exact ih (n / 10) (by omega) h
      · exact ⟨n % 10, by omega, h⟩

/-- What holds of the ten digits holds of every character of a decimal spelling. -/
theorem forall_mem_ofNat {P : CodePoint → Prop} (hP : ∀ d : Nat, d < 10 → P (0x30 + d)) (n : Nat) :
    ∀ c ∈ ofNat n, P c := by
  intro c hc
  obtain ⟨d, hd, rfl⟩ := exists_digit_of_mem_ofNat hc
  exact hP d hd

theorem isAnyDigit_of_mem_ofNat {n : Nat} : ∀ c ∈ ofNat n, isAnyDigit c = true :=
  forall_mem_ofNat (by decide) n

theorem length_ofNat_le_iff {n k : Nat} (hk : 0 < k) : (ofNat n).length ≤ k ↔ n < 10 ^ k := by
  rw [ofNat, List.length_map, Nat.length_toDigits_le_iff (by decide) hk]

/-- One more digit at the end. -/
theorem positional?_concat (base : Nat) (value? : CodePoint → Option Nat) (t : Text)
    (c : CodePoint) : positional? base value? (t ++ [c]) =
      (positional? base value? t).bind fun n ↦ (value? c).map (n * base + ·) := by
  simp only [positional?, List.foldl_append, List.foldl_cons, List.foldl_nil]
  cases t.foldl (fun total c ↦ do return (← total) * base + (← value? c)) (some 0) with
  | none => rfl
  | some n => cases value? c <;> rfl

theorem positional?_lt {base : Nat} {value? : CodePoint → Option Nat} {t : Text} {n : Nat}
    (hv : ∀ c d, value? c = some d → d < base) (h : positional? base value? t = some n) :
    n < base ^ t.length := by
  induction t using List.reverseRecOn generalizing n with
  | nil =>
    have hn : 0 = n := by simpa [positional?] using h
    simp [← hn]
  | append_singleton t c ih =>
    rw [positional?_concat] at h
    obtain ⟨m, hm, hc⟩ := Option.bind_eq_some_iff.mp h
    obtain ⟨d, hd, rfl⟩ := Option.map_eq_some_iff.mp hc
    have hlt := hv c d hd
    have hle := Nat.mul_le_mul_right base (Nat.succ_le_of_lt (ih hm))
    rw [List.length_append, List.length_singleton, Nat.pow_succ]
    rw [Nat.succ_mul] at hle
    omega

/-- A number is read from its digits in a base by what gives these their values. -/
theorem positional?_toDigits {base : Nat} {value? : CodePoint → Option Nat} (hbase : 1 < base)
    (hv : ∀ d < base, value? d.digitChar.toNat = some d) (n : Nat) :
    positional? base value? ((Nat.toDigits base n).map Char.toNat) = some n := by
  induction n using Nat.strongRecOn with
  | ind n ih =>
    by_cases hn : n < base
    · rw [Nat.toDigits_of_lt_base hn]
      simp [positional?, hv n hn]
    · rw [Nat.toDigits_of_base_le hbase (Nat.le_of_not_lt hn), List.map_append, List.map_singleton,
        positional?_concat, ih (n / base) (Nat.div_lt_self (by omega) hbase),
        hv (n % base) (Nat.mod_lt n (by omega))]
      simp only [Option.bind_some, Option.map_some, Nat.div_add_mod']

theorem positional?_ofNat {value? : CodePoint → Option Nat}
    (hv : ∀ d : Nat, d < 10 → value? (0x30 + d) = some d) (n : Nat) :
    positional? 10 value? (ofNat n) = some n :=
  positional?_toDigits (by decide) (fun d hd ↦ by rw [digitChar_toNat hd, hv d hd]) n

end Text

namespace Number

open Text

theorem digitIn?_lt {base c d : Nat} (h : digitIn? base c = some d) : d < base := by
  simp only [digitIn?, Option.filter_eq_some_iff, decide_eq_true_eq] at h
  exact h.2

theorem map_plainPoint_ofNat (n : Nat) : (ofNat n).map plainPoint = ofNat n := by
  have h : ∀ c ∈ ofNat n, plainPoint c = id c := forall_mem_ofNat (by decide) n
  rw [List.map_congr_left h, List.map_id]

theorem digits?_ofNat (n : Nat) : digits? 10 (ofNat n) = some n := by
  have hv : ∀ d : Nat, d < 10 → digitIn? 10 (0x30 + d) = some d := by decide
  rw [digits?, if_neg (by simp [ofNat_ne_nil]), positional?_ofNat hv]

/-- A number that is not too long is read from its decimal spelling. -/
theorem decimal_ofNat {n : Nat} (h : (ofNat n).length ≤ digitLimit) : decimal (ofNat n) = .ok n := by
  rw [decimal, map_plainPoint_ofNat, digits?_ofNat]
  exact if_neg (by omega)

/-- What is read is never longer in its decimal spelling than what it was read from. -/
theorem length_ofNat_le_of_decimal {t : Text} {n : Nat} (h : decimal t = .ok n) :
    (ofNat n).length ≤ digitLimit := by
  simp only [decimal] at h
  cases hd : digits? 10 (t.map plainPoint) with
  | none => simp [hd] at h
  | some m =>
    simp only [hd] at h
    split at h
    · simp at h
    · rename_i hlen
      obtain rfl : m = n := by simpa using h
      rw [digits?] at hd
      split at hd
      · simp at hd
      · have hlt := positional?_lt (fun c d ↦ digitIn?_lt) hd
        rw [List.length_map] at hlt
        rw [length_ofNat_le_iff (by decide)]
        exact Nat.lt_of_lt_of_le hlt (Nat.pow_le_pow_right (by decide) (by omega))

end Number

end MessageExtraction
