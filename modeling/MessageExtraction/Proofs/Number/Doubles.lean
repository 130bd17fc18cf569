import Mathlib
import MessageExtraction.Number.Binary

/-!
Doubles that are the same integer are equal. A finite double is stored as a power and a fraction,
and the number that it is, in units of the least positive double, tells both.
-/

namespace MessageExtraction.Binary

/-- The number of a double without its sign, in units of the least positive double. -/
def units (power fraction : Nat) : Nat :=
  if power = 0 then fraction else (2 ^ 52 + fraction) * 2 ^ (power - 1)

theorem units_lt_of_power_lt {power power' fraction : Nat} (fraction' : Nat)
    (hf : fraction < 2 ^ 52) (h : power < power') :
    units power fraction < units power' fraction' := by
  have hpos : power' ≠ 0 := by omega
  have hlow : 2 ^ 52 * 2 ^ (power' - 1) ≤ units power' fraction' := by
    rw [units, if_neg hpos]
    exact Nat.mul_le_mul_right _ (Nat.le_add_right _ _)
  refine lt_of_lt_of_le ?_ hlow
  by_cases hp : power = 0
  · have hone : 1 ≤ 2 ^ (power' - 1) := Nat.one_le_two_pow
    rw [units, if_pos hp]
    omega
  · have hstep : 2 ^ power ≤ 2 ^ (power' - 1) := Nat.pow_le_pow_right (by decide) (by omega)
    have hsplit : 2 ^ power = 2 * 2 ^ (power - 1) := by
      rw [← Nat.pow_succ', Nat.succ_eq_add_one, Nat.sub_add_cancel (by omega)]
    have hbound : (2 ^ 52 + fraction) * 2 ^ (power - 1) < 2 ^ 53 * 2 ^ (power - 1) :=
      Nat.mul_lt_mul_of_pos_right (by omega) (Nat.two_pow_pos _)
    rw [units, if_neg hp]
    omega

/-- The units of a double tell its power and its fraction. -/
theorem eq_of_units_eq {power power' fraction fraction' : Nat} (hf : fraction < 2 ^ 52)
    (hf' : fraction' < 2 ^ 52) (h : units power fraction = units power' fraction') :
    power = power' ∧ fraction = fraction' := by
  obtain hlt | rfl | hlt := Nat.lt_trichotomy power power'
  · have := units_lt_of_power_lt fraction' hf hlt
    omega
  · refine ⟨rfl, ?_⟩
    by_cases hp : power = 0
    · simpa [units, hp] using h
    · rw [units, units, if_neg hp, if_neg hp] at h
      have := Nat.eq_of_mul_eq_mul_right (Nat.two_pow_pos _) h
      omega
  · have := units_lt_of_power_lt fraction hf' hlt
    omega

theorem twoTo_add (m n : Nat) : twoTo (m + n) = twoTo m * twoTo n := Nat.pow_add 2 m n

theorem ofFloat_eq_finite {x : Float} {negative : Bool} {m : Nat} {e : Int}
    (h : ofFloat x = .finite negative m e) : ∃ power fraction,
      x.toBits.toNat = (if negative then 2 ^ 63 else 0) + power * 2 ^ 52 + fraction ∧
      fraction < 2 ^ 52 ∧
      (power = 0 ∧ m = fraction ∧ e = -1074 ∨
        power ≠ 0 ∧ m = 2 ^ 52 + fraction ∧ e = (power : Int) - 1075) := by
  have hbits := x.toBits.toNat_lt
  have h52 : twoTo 52 = 4503599627370496 := by decide
  have h63 : twoTo 63 = 9223372036854775808 := by decide
  have h11 : twoTo 11 = 2048 := by decide
  rw [ofFloat] at h
  generalize x.toBits.toNat = bits at h hbits ⊢
  simp only [h52, h63, h11] at h
  refine ⟨bits / 4503599627370496 % 2048, bits % 4503599627370496, ?_⟩
  split at h
  · split at h <;> cases h
  split at h
  · rename_i hp
    obtain ⟨rfl, rfl, rfl⟩ := Binary.finite.inj h
    refine ⟨?_, by omega, .inl ⟨hp, rfl, rfl⟩⟩
    split <;> simp_all <;> omega
  · rename_i hp
    obtain ⟨rfl, rfl, rfl⟩ := Binary.finite.inj h
    refine ⟨?_, by omega, .inr ⟨hp, rfl, rfl⟩⟩
    split <;> simp_all <;> omega

/-- How a double is stored that is an integer. -/
structure StoresInt (x : Float) (n : Int) (negative : Bool) (power fraction : Nat) : Prop where
  bits_eq : x.toBits.toNat = (if negative then 2 ^ 63 else 0) + power * 2 ^ 52 + fraction
  fraction_lt : fraction < 2 ^ 52
  units_eq : units power fraction = n.natAbs * twoTo 1074
  sign_eq : if negative then n ≤ 0 else 0 ≤ n

/-- The units of a double whose mantissa and exponent make a whole number. -/
theorem units_eq_of_whole {power fraction m v : Nat} {e : Int}
    (hparts : power = 0 ∧ m = fraction ∧ e = -1074 ∨
      power ≠ 0 ∧ m = 2 ^ 52 + fraction ∧ e = (power : Int) - 1075)
    (hv : (if 0 ≤ e then some (m * twoTo e.toNat)
      else if m % twoTo e.natAbs = 0 then some (m / twoTo e.natAbs) else none) = some v) :
    units power fraction = v * twoTo 1074 := by
  have hunits : units power fraction = m * twoTo (e + 1074).toNat := by
    obtain ⟨hp, rfl, rfl⟩ | ⟨hp, rfl, rfl⟩ := hparts
    · rw [units, if_pos hp]
      exact (Nat.mul_one _).symm
    · have he : ((power : Int) - 1075 + 1074).toNat = power - 1 := by omega
      rw [units, if_neg hp, he]
      rfl
  have hlow : -1074 ≤ e := by omega
  rw [hunits]
  split at hv
  · have hsum : (e + 1074).toNat = e.toNat + 1074 := by omega
    rw [← Option.some.inj hv, hsum, twoTo_add, Nat.mul_assoc]
  split at hv
  · rename_i hdvd
    have hsum : e.natAbs + (e + 1074).toNat = 1074 := by omega
    have hm : v * twoTo e.natAbs = m := by
      rw [← Option.some.inj hv]
      exact Nat.div_mul_cancel (Nat.dvd_of_mod_eq_zero hdvd)
    rw [← hm, Nat.mul_assoc, ← twoTo_add, hsum]
  · cases hv

theorem storesInt_of_toInt? {x : Float} {n : Int} (h : toInt? x = some n) :
    ∃ negative power fraction, StoresInt x n negative power fraction := by
  rw [toInt?] at h
  split at h
  · rename_i negative m e hfinite
    obtain ⟨power, fraction, hbits, hfraction, hparts⟩ := ofFloat_eq_finite hfinite
    obtain ⟨v', hv', hn⟩ := Option.map_eq_some_iff.mp h
    obtain ⟨v, hv, hcast⟩ := Option.bind_eq_some_iff.mp hv'
    obtain rfl := Option.some.inj hcast
    have hunits := units_eq_of_whole hparts hv
    refine ⟨negative, power, fraction, hbits, hfraction, ?_, ?_⟩
    · rw [hunits, ← hn]
      split <;> simp
    · rw [← hn]
      split <;> omega
  · cases h

theorem ne_nan_of_toInt? {x : Float} {n : Int} (h : toInt? x = some n) : x ≠ Float.nan := by
  rintro rfl
  have hnan : ofFloat Float.nan = .nan := by decide
  rw [toInt?, hnan] at h
  cases h

theorem eq_of_toBits_toNat {x y : Float} (h : x.toBits.toNat = y.toBits.toNat) : x = y :=
  Float.toBits_inj.mp (UInt64.toNat_inj.mp h)

/-- A double that is zero, by its sign. -/
theorem StoresInt.eq_zero {x : Float} {negative : Bool} {power fraction : Nat}
    (h : StoresInt x 0 negative power fraction) : x = if negative then -0 else 0 := by
  have hzero : units power fraction = units 0 0 := by
    rw [h.units_eq]
    simp [units]
  obtain ⟨rfl, rfl⟩ := eq_of_units_eq h.fraction_lt (by decide) hzero
  apply eq_of_toBits_toNat
  rw [h.bits_eq]
  cases negative <;> decide

/-- Doubles that are one integer are equal. -/
theorem beq_of_toInt?_eq {x y : Float} {n : Int} (hx : toInt? x = some n)
    (hy : toInt? y = some n) : (x == y) = true := by
  obtain ⟨negx, power, fraction, sx⟩ := storesInt_of_toInt? hx
  obtain ⟨negy, power', fraction', sy⟩ := storesInt_of_toInt? hy
  obtain ⟨rfl, rfl⟩ :=
    eq_of_units_eq sx.fraction_lt sy.fraction_lt (sx.units_eq.trans sy.units_eq.symm)
  refine Float.beq_iff_ne_nan_and_eq.mpr ⟨ne_nan_of_toInt? hx, ne_nan_of_toInt? hy, ?_⟩
  by_cases hsign : negx = negy
  · subst hsign
    exact .inl (eq_of_toBits_toNat (sx.bits_eq.trans sy.bits_eq.symm))
  · -- a number of both signs is zero
    have hn : n = 0 := by
      have hx := sx.sign_eq
      have hy := sy.sign_eq
      cases negx <;> cases negy <;> simp_all <;> omega
    subst hn
    have hx := sx.eq_zero
    have hy := sy.eq_zero
    cases negx <;> cases negy <;> simp_all

theorem toInt?_zero : toInt? 0 = some 0 := by
  have hfinite : ofFloat 0 = .finite false 0 (-1074) := by decide
  rw [toInt?, hfinite]
  simp

theorem toInt?_neg_zero : toInt? (-0) = some 0 := by
  have hfinite : ofFloat (-0) = .finite true 0 (-1074) := by decide
  rw [toInt?, hfinite]
  simp

/-- Equal doubles are the same integer, if they are one. -/
theorem toInt?_eq_of_beq {x y : Float} (h : (x == y) = true) : toInt? x = toInt? y := by
  obtain ⟨-, -, rfl | ⟨rfl, rfl⟩ | ⟨rfl, rfl⟩⟩ := Float.beq_iff_ne_nan_and_eq.mp h
  · rfl
  · rw [toInt?_zero, toInt?_neg_zero]
  · rw [toInt?_zero, toInt?_neg_zero]

end MessageExtraction.Binary
