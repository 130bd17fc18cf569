import MessageExtraction.Proofs.Number.Magnitude

/-!
Rounding to the nearest double. The quotients that are nearest to a double, or as near to it as to a
neighbour with an odd mantissa, are those of an interval, and all of these are rounded to it.
-/

namespace MessageExtraction.Binary

/-- How far below a double its interval goes, in quarters of its last place: half as far where the
next double below is twice as near. -/
def reach (m : Nat) (e : Int) : Nat := if m = 2 ^ 52 ∧ -1074 < e then 1 else 2

/-- A number that is rounded to `m * 2 ^ e`. -/
structure RoundsTo (q : ℚ) (m : Nat) (e : Int) : Prop where
  low_le : (4 * m - reach m e : ℚ) * 2 ^ (e - 2) ≤ q
  le_high : q ≤ (4 * m + 2 : ℚ) * 2 ^ (e - 2)
  low_lt : m % 2 = 1 → (4 * m - reach m e : ℚ) * 2 ^ (e - 2) < q
  lt_high : m % 2 = 1 → q < (4 * m + 2 : ℚ) * 2 ^ (e - 2)

theorem cast_twoTo (n : Nat) : (twoTo n : ℚ) = 2 ^ n := by
  rw [twoTo]
  exact Nat.cast_pow 2 n

/-- Scaling divides by a power of two. -/
theorem cast_scaled (num den : Nat) (e : Int) :
    ((scaled num den e).1 : ℚ) / (scaled num den e).2 = num / den * 2 ^ (-e) := by
  rw [scaled]
  split
  · rename_i he
    have hpower : (2 : ℚ) ^ (-e) = twoTo e.natAbs := by
      rw [cast_twoTo, ← zpow_natCast]
      congr 1
      omega
    rw [hpower]
    push_cast
    ring
  · rename_i he
    have hpower : (2 : ℚ) ^ (-e) = (twoTo e.natAbs : ℚ)⁻¹ := by
      rw [cast_twoTo, ← zpow_natCast, ← zpow_neg]
      congr 2
      omega
    rw [hpower]
    push_cast
    rw [div_mul_eq_div_div, div_eq_mul_inv]

theorem scaled_snd_pos {num den : Nat} (hden : 0 < den) (e : Int) : 0 < (scaled num den e).2 := by
  rw [scaled]
  split
  · exact hden
  · exact Nat.mul_pos hden (Nat.two_pow_pos _)

/-- A quotient that is within half of a whole number, or half off an even one, is rounded to it. -/
theorem roundDiv_eq {n d k : Nat} (hd : 0 < d) (hlow : 2 * (d * k) ≤ 2 * n + d)
    (hhigh : 2 * n ≤ 2 * (d * k) + d) (hodd : k % 2 = 1 → 2 * (d * k) < 2 * n + d ∧
      2 * n < 2 * (d * k) + d) : roundDiv n d = k := by
  have hdiv := Nat.div_add_mod n d
  have hmod := Nat.mod_lt n hd
  rw [roundDiv]
  generalize n / d = q at *
  generalize n % d = r at *
  obtain hlt | rfl | hgt := Nat.lt_trichotomy q k
  · obtain hlt' | rfl := Nat.lt_or_eq_of_le hlt
    · have := Nat.mul_le_mul_left d hlt'
      rw [Nat.mul_succ, Nat.mul_succ] at this
      omega
    · rw [Nat.mul_succ] at hlow hhigh hodd
      split
      · omega
      split <;> omega
  · split
    · rfl
    split <;> omega
  · have := Nat.mul_le_mul_left d hgt
    rw [Nat.mul_succ] at this
    omega

theorem quotient_bounds {num den : Nat} (hnum : num ≠ 0) (hden : den ≠ 0) :
    (2 : ℚ) ^ ((num.log2 : Int) - den.log2 - 1) < num / den ∧
      (num : ℚ) / den < 2 ^ ((num.log2 : Int) - den.log2 + 1) := by
  have hpos : (0 : ℚ) < den := by exact_mod_cast Nat.pos_of_ne_zero hden
  have hnum_ge : (2 : ℚ) ^ (num.log2 : Int) ≤ num := by
    rw [zpow_natCast]
    exact_mod_cast Nat.log2_self_le hnum
  have hnum_lt : (num : ℚ) < 2 ^ ((num.log2 : Int) + 1) := by
    rw [zpow_add_one₀ two_ne_zero, zpow_natCast, ← pow_succ]
    exact_mod_cast Nat.lt_log2_self
  have hden_ge : (2 : ℚ) ^ (den.log2 : Int) ≤ den := by
    rw [zpow_natCast]
    exact_mod_cast Nat.log2_self_le hden
  have hden_lt : (den : ℚ) < 2 ^ ((den.log2 : Int) + 1) := by
    rw [zpow_add_one₀ two_ne_zero, zpow_natCast, ← pow_succ]
    exact_mod_cast Nat.lt_log2_self
  generalize (num.log2 : Int) = a at *
  generalize (den.log2 : Int) = b at *
  constructor
  · rw [lt_div_iff₀ hpos]
    calc (2 : ℚ) ^ (a - b - 1) * den < 2 ^ (a - b - 1) * 2 ^ (b + 1) := by gcongr
      _ = 2 ^ a := by rw [← zpow_add₀ two_ne_zero]; congr 1; ring
      _ ≤ num := hnum_ge
  · rw [div_lt_iff₀ hpos]
    calc (num : ℚ) < 2 ^ (a + 1) := hnum_lt
      _ = 2 ^ (a - b + 1) * 2 ^ b := by rw [← zpow_add₀ two_ne_zero]; congr 1; ring
      _ ≤ 2 ^ (a - b + 1) * den := by gcongr

/-- The exponent is the one at which the mantissa has 53 bits, unless that is too small. -/
theorem exponentOf_spec {num den : Nat} (hnum : num ≠ 0) (hden : den ≠ 0) :
    -1074 ≤ exponentOf num den ∧ (num : ℚ) / den < 2 ^ (exponentOf num den + 53) ∧
      (exponentOf num den = -1074 ∨ (2 : ℚ) ^ (exponentOf num den + 52) ≤ num / den) := by
  obtain ⟨hlow, hhigh⟩ := quotient_bounds hnum hden
  set guess : Int := (num.log2 : Int) - den.log2 - 53 with hguess
  have htest : (scaled num den guess).1 < twoTo 53 * (scaled num den guess).2 ↔
      (num : ℚ) / den < 2 ^ (guess + 53) := by
    have hpos : (0 : ℚ) < (scaled num den guess).2 := by
      exact_mod_cast scaled_snd_pos (Nat.pos_of_ne_zero hden) guess
    rw [← Nat.cast_lt (α := ℚ), Nat.cast_mul, ← div_lt_iff₀ hpos, cast_scaled, cast_twoTo,
      zpow_neg, mul_inv_lt_iff₀ (by positivity), add_comm, zpow_add₀ two_ne_zero]
    norm_cast
  have hexponent : exponentOf num den =
      max (-1074) (if (num : ℚ) / den < 2 ^ (guess + 53) then guess else guess + 1) := by
    rw [exponentOf, ← hguess]
    simp only [htest]
  rw [show (num.log2 : Int) - den.log2 - 1 = guess + 52 by omega] at hlow
  rw [show (num.log2 : Int) - den.log2 + 1 = guess + 1 + 53 by omega] at hhigh
  -- the exponent before the bound from below
  obtain ⟨e, he, hle, hlt⟩ : ∃ e : Int, exponentOf num den = max (-1074) e ∧
      (2 : ℚ) ^ (e + 52) ≤ num / den ∧ (num : ℚ) / den < 2 ^ (e + 53) := by
    by_cases hfits : (num : ℚ) / den < 2 ^ (guess + 53)
    · exact ⟨guess, by rw [hexponent, if_pos hfits], hlow.le, hfits⟩
    · refine ⟨guess + 1, by rw [hexponent, if_neg hfits], ?_, hhigh⟩
      rw [show guess + 1 + 52 = guess + 53 by ring]
      exact not_lt.mp hfits
  rw [he]
  refine ⟨le_max_left _ _, hlt.trans_le ?_, ?_⟩
  · exact zpow_le_zpow_right₀ one_le_two (by omega)
  · obtain h | h := le_total e (-1074)
    · exact .inl (max_eq_left h)
    · exact .inr (by rwa [max_eq_right h])

variable {q : ℚ} {m : Nat} {e : Int}

theorem RoundsTo.lt (h : RoundsTo q m e) (hm : IsStored m e) : q < 2 ^ (e + 53) := by
  have hm' : (m : ℚ) + 1 ≤ 2 ^ 53 := by exact_mod_cast hm.lt
  calc q ≤ (4 * m + 2) * 2 ^ (e - 2) := h.le_high
    _ < 2 ^ (55 : Int) * 2 ^ (e - 2) := by
        gcongr
        norm_num at hm' ⊢
        linarith
    _ = 2 ^ (e + 53) := by rw [← zpow_add₀ two_ne_zero]; congr 1; ring

/-- A double whose mantissa is not the least of its binade has its interval in the binade. -/
theorem RoundsTo.lt_of_ne (h : RoundsTo q m e) (hm : 2 ^ 52 < m) : 2 ^ (e + 52) < q := by
  have hreach : reach m e = 2 := by
    rw [reach, if_neg]
    omega
  have hm' : (2 ^ 52 + 1 : ℚ) ≤ m := by exact_mod_cast hm
  calc (2 : ℚ) ^ (e + 52) = 2 ^ (54 : Int) * 2 ^ (e - 2) := by
        rw [← zpow_add₀ two_ne_zero]; congr 1; ring
    _ < (4 * m - reach m e) * 2 ^ (e - 2) := by
        rw [hreach, Nat.cast_ofNat]
        gcongr
        linarith only [hm']
    _ ≤ q := h.low_le

theorem RoundsTo.lt_of_least (h : RoundsTo q m e) (hm : 2 ^ 52 ≤ m) : 2 ^ (e + 51) < q := by
  have hreach : (reach m e : ℚ) ≤ 2 := by
    rw [reach]
    split <;> norm_num
  have hm' : (2 : ℚ) ^ 52 ≤ m := by exact_mod_cast hm
  calc (2 : ℚ) ^ (e + 51) = 2 ^ (53 : Int) * 2 ^ (e - 2) := by
        rw [← zpow_add₀ two_ne_zero]; congr 1; ring
    _ < (4 * m - reach m e) * 2 ^ (e - 2) := by
        gcongr
        linarith
    _ ≤ q := h.low_le

/-- The exponent of a quotient that is rounded to a double is that of the double, or the one below
where the double is the least of its binade and the quotient less. -/
theorem exponentOf_cases {num den : Nat} (hnum : num ≠ 0) (hden : den ≠ 0) (hm : IsStored m e)
    (h : RoundsTo (num / den) m e) : exponentOf num den = e ∨
      exponentOf num den = e - 1 ∧ m = 2 ^ 52 ∧ -1074 < e := by
  obtain ⟨hleast, hlt, hge⟩ := exponentOf_spec hnum hden
  have hle : exponentOf num den ≤ e := by
    obtain heq | hge := hge
    · rw [heq]
      exact hm.least
    · have := (zpow_lt_zpow_iff_right₀ one_lt_two).mp (hge.trans_lt (h.lt hm))
      omega
  obtain hless | heq := hle.lt_or_eq
  · right
    have hnormal : 2 ^ 52 ≤ m := hm.normal.resolve_right (by omega)
    have hm' : m = 2 ^ 52 := by
      by_contra hne
      have hgt := h.lt_of_ne (lt_of_le_of_ne hnormal (Ne.symm hne))
      have := (zpow_lt_zpow_iff_right₀ one_lt_two).mp (hgt.trans hlt)
      omega
    have := (zpow_lt_zpow_iff_right₀ one_lt_two).mp ((h.lt_of_least hnormal).trans hlt)
    exact ⟨by omega, hm', by omega⟩
  · exact .inl heq

/-- The quotient at some exponent, as the rounding of quotients sees it. -/
theorem roundDiv_scaled {num den k : Nat} {e : Int} (hden : den ≠ 0)
    (hlow : (2 * k - 1 : ℚ) * 2 ^ (e - 1) ≤ num / den)
    (hhigh : (num : ℚ) / den ≤ (2 * k + 1) * 2 ^ (e - 1))
    (hodd : k % 2 = 1 → (2 * k - 1 : ℚ) * 2 ^ (e - 1) < num / den ∧
      (num : ℚ) / den < (2 * k + 1) * 2 ^ (e - 1)) :
    roundDiv (scaled num den e).1 (scaled num den e).2 = k := by
  have hd := @scaled_snd_pos num den (Nat.pos_of_ne_zero hden) e
  have hquotient := cast_scaled num den e
  generalize (scaled num den e).1 = n at *
  generalize (scaled num den e).2 = d at *
  have hd' : (0 : ℚ) < d := by exact_mod_cast hd
  have hpower : (0 : ℚ) < 2 ^ (e - 1) := by positivity
  have hq : (num : ℚ) / den = 2 * n / d * 2 ^ (e - 1) := by
    rw [mul_div_assoc, hquotient, mul_comm 2, mul_assoc, mul_assoc, ← zpow_one_add₀ two_ne_zero,
      ← zpow_add₀ two_ne_zero, show -e + (1 + (e - 1)) = 0 by ring, zpow_zero, mul_one]
  rw [hq, mul_le_mul_iff_left₀ hpower] at hlow hhigh
  rw [hq, mul_lt_mul_iff_left₀ hpower, mul_lt_mul_iff_left₀ hpower, lt_div_iff₀ hd',
    div_lt_iff₀ hd'] at hodd
  rw [le_div_iff₀ hd'] at hlow
  rw [div_le_iff₀ hd'] at hhigh
  refine roundDiv_eq hd ?_ ?_ fun hk ↦ ⟨?_, ?_⟩
  · have : (2 * (d * k) : ℚ) ≤ 2 * n + d := by linarith
    exact_mod_cast this
  · have : (2 * n : ℚ) ≤ 2 * (d * k) + d := by linarith
    exact_mod_cast this
  · have : (2 * (d * k) : ℚ) < 2 * n + d := by linarith [(hodd hk).1]
    exact_mod_cast this
  · have : (2 * n : ℚ) < 2 * (d * k) + d := by linarith [(hodd hk).2]
    exact_mod_cast this

/-- A quotient that is rounded to a double makes that double. -/
theorem nearest?_eq {num den : Nat} (hnum : num ≠ 0) (hden : den ≠ 0) (hm : IsStored m e)
    (h : RoundsTo (num / den) m e) : nearest? num den = some (magnitude m e) := by
  have hpower : (2 : ℚ) ^ (e - 1) = 2 * 2 ^ (e - 2) := by
    rw [← zpow_one_add₀ two_ne_zero]
    congr 1
    ring
  have hreach : (reach m e : ℚ) ≤ 2 := by
    rw [reach]
    split <;> norm_num
  have hpos : (0 : ℚ) < 2 ^ (e - 2) := by positivity
  rw [nearest?, if_neg (by omega)]
  obtain he | ⟨he, rfl, hleast⟩ := exponentOf_cases hnum hden hm h
  · have hround : roundDiv (scaled num den e).1 (scaled num den e).2 = m := by
      refine roundDiv_scaled hden ?_ ?_ fun hodd ↦ ⟨?_, ?_⟩
      · rw [hpower]
        nlinarith [h.low_le]
      · rw [hpower]
        nlinarith [h.le_high]
      · rw [hpower]
        nlinarith [h.low_lt hodd]
      · rw [hpower]
        nlinarith [h.lt_high hodd]
    have hlt : m ≠ twoTo 53 := (Nat.ne_of_lt hm.lt)
    simp only [he, hround, if_neg hlt, if_neg (not_lt.mpr hm.greatest), magnitude]
    split <;> rfl
  · -- the quotient is less than the least of the binade and is rounded up to it
    have hround : roundDiv (scaled num den (e - 1)).1 (scaled num den (e - 1)).2 = 2 ^ 53 := by
      refine roundDiv_scaled hden ?_ ?_ fun hodd ↦ absurd hodd (by decide)
      · have hlow := h.low_le
        rw [reach, if_pos ⟨rfl, hleast⟩] at hlow
        rw [show e - 1 - 1 = e - 2 by ring]
        push_cast at hlow ⊢
        linarith
      · have hlt := (exponentOf_spec hnum hden).2.1
        rw [he, show e - 1 + 53 = 54 + (e - 2) by ring, zpow_add₀ two_ne_zero] at hlt
        rw [show e - 1 - 1 = e - 2 by ring]
        push_cast
        refine hlt.le.trans ?_
        gcongr
        norm_num
    have hcarry : roundDiv (scaled num den (e - 1)).1 (scaled num den (e - 1)).2 = twoTo 53 := hround
    have hleft : magnitude (2 ^ 52) e =
        Float.ofBits (UInt64.ofNat ((e + 1075).toNat * twoTo 52 + (twoTo 52 - twoTo 52))) :=
      if_neg (lt_irrefl (twoTo 52))
    simp only [he, if_pos hcarry, Int.sub_add_cancel, if_neg (not_lt.mpr hm.greatest),
      if_neg (lt_irrefl (twoTo 52)), hleft]

end MessageExtraction.Binary
