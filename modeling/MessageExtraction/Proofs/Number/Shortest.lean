import MessageExtraction.Number.Shortest
import MessageExtraction.Proofs.Number.Rounding

/-!
The shortest decimal of a double is read back as that double. On a grid of seventeen digits the point
nearest to a double lies in its interval, so some grid has such a point, and what lies in the interval is
rounded to the double.
-/

namespace MessageExtraction

namespace Binary

/-- Rounding goes no farther than half the way. -/
theorem roundDiv_near {n d : Nat} (hd : 0 < d) :
    2 * (d * roundDiv n d) ≤ 2 * n + d ∧ 2 * n ≤ 2 * (d * roundDiv n d) + d := by
  have hdiv := Nat.div_add_mod n d
  have hmod := Nat.mod_lt n hd
  rw [roundDiv]
  generalize n / d = q at *
  generalize n % d = r at *
  split
  · omega
  split
  · rw [Nat.mul_succ]
    omega
  · obtain h | h := Nat.mod_two_eq_zero_or_one q
    · rw [h, Nat.add_zero]
      omega
    · rw [h, Nat.mul_succ]
      omega

end Binary

namespace Decimal

open Binary

variable {m : Nat} {e : Int}

/-- The number that a decimal is. -/
def value (d : Decimal) : ℚ := d.digits * 10 ^ d.exponent

theorem tenPower_snd_pos (e : Int) : 0 < (tenPower e).2 := by
  rw [tenPower]
  split
  · exact Nat.one_pos
  · exact Nat.pow_pos (by decide)

theorem tenPower_fst_pos (e : Int) : 0 < (tenPower e).1 := by
  rw [tenPower]
  split
  · exact Nat.pow_pos (by decide)
  · exact Nat.one_pos

theorem cast_tenTo (n : Nat) : (tenTo n : ℚ) = 10 ^ n := Nat.cast_pow 10 n

theorem cast_tenPower (e : Int) : ((tenPower e).1 : ℚ) / (tenPower e).2 = 10 ^ e := by
  rw [tenPower]
  split
  · rename_i he
    rw [cast_tenTo, Nat.cast_one, div_one, ← zpow_natCast, Int.toNat_of_nonneg he]
  · rename_i he
    rw [cast_tenTo, Nat.cast_one, one_div, ← zpow_natCast, ← zpow_neg]
    congr 1
    omega

/-- The interval of a double, in quarters of the last place of its mantissa. -/
theorem interval_eq (m : Nat) (e : Int) : ∃ unit den : Nat, 0 < unit ∧ 0 < den ∧
    (unit : ℚ) / den = 2 ^ (e - 2) ∧ interval m e =
      ⟨(4 * m - reach m e) * unit, 4 * m * unit, (4 * m + 2) * unit, den, m % 2 = 0⟩ := by
  by_cases he : 0 ≤ e - 2
  · refine ⟨twoTo (e - 2).toNat, 1, Nat.two_pow_pos _, Nat.one_pos, ?_, ?_⟩
    · rw [cast_twoTo, Nat.cast_one, div_one, ← zpow_natCast, Int.toNat_of_nonneg he]
    · rw [interval, if_pos he]
      rfl
  · refine ⟨1, twoTo (e - 2).natAbs, Nat.one_pos, Nat.two_pow_pos _, ?_, ?_⟩
    · rw [cast_twoTo, Nat.cast_one, one_div, ← zpow_natCast, ← zpow_neg]
      congr 1
      omega
    · rw [interval, if_neg he]
      rfl

theorem div_le_div_iff_nat {a b c d : Nat} (hb : 0 < b) (hd : 0 < d) :
    (a : ℚ) / b ≤ c / d ↔ a * d ≤ c * b := by
  rw [div_le_div_iff₀ (by exact_mod_cast hb) (by exact_mod_cast hd)]
  exact_mod_cast Iff.rfl

theorem div_lt_div_iff_nat {a b c d : Nat} (hb : 0 < b) (hd : 0 < d) :
    (a : ℚ) / b < c / d ↔ a * d < c * b := by
  rw [div_lt_div_iff₀ (by exact_mod_cast hb) (by exact_mod_cast hd)]
  exact_mod_cast Iff.rfl

theorem value_eq (d : Decimal) :
    d.value = (d.digits * (tenPower d.exponent).1 : Nat) / (tenPower d.exponent).2 := by
  rw [value, ← cast_tenPower, Nat.cast_mul, mul_div_assoc]

/-- A decimal lies in the interval of a double iff it is rounded to it. -/
theorem holds_interval (hm : m ≠ 0) (d : Decimal) :
    (interval m e).holds d = true ↔ RoundsTo d.value m e := by
  obtain ⟨unit, den, -, hden, hunit, hinterval⟩ := interval_eq m e
  have hq := tenPower_snd_pos d.exponent
  have hreach : reach m e ≤ 4 * m := by
    rw [reach]
    split <;> omega
  have hlow : (4 * m - reach m e : ℚ) * 2 ^ (e - 2) =
      ((4 * m - reach m e) * unit : Nat) / den := by
    rw [← hunit, ← mul_div_assoc]
    push_cast [hreach]
    rfl
  have hhigh : (4 * m + 2 : ℚ) * 2 ^ (e - 2) = ((4 * m + 2) * unit : Nat) / den := by
    rw [← hunit, ← mul_div_assoc]
    push_cast
    rfl
  have hrounds : RoundsTo d.value m e ↔
      (4 * m - reach m e) * unit * (tenPower d.exponent).2 ≤
        d.digits * (tenPower d.exponent).1 * den ∧
      d.digits * (tenPower d.exponent).1 * den ≤ (4 * m + 2) * unit * (tenPower d.exponent).2 ∧
      (m % 2 = 1 → (4 * m - reach m e) * unit * (tenPower d.exponent).2 <
        d.digits * (tenPower d.exponent).1 * den ∧
      d.digits * (tenPower d.exponent).1 * den < (4 * m + 2) * unit * (tenPower d.exponent).2) := by
    rw [← div_le_div_iff_nat hden hq, ← div_le_div_iff_nat hq hden, ← div_lt_div_iff_nat hden hq,
      ← div_lt_div_iff_nat hq hden, ← value_eq, ← hlow, ← hhigh]
    exact ⟨fun h ↦ ⟨h.low_le, h.le_high, fun hodd ↦ ⟨h.low_lt hodd, h.lt_high hodd⟩⟩,
      fun h ↦ ⟨h.1, h.2.1, fun hodd ↦ (h.2.2 hodd).1, fun hodd ↦ (h.2.2 hodd).2⟩⟩
  rw [hrounds, Interval.holds, hinterval]
  simp only [decide_eq_true_eq]
  split
  · rename_i heven
    simp only [Bool.and_eq_true, decide_eq_true_eq]
    refine ⟨fun h ↦ ⟨h.1, h.2, fun hodd ↦ by omega⟩, fun h ↦ ⟨h.1, h.2.1⟩⟩
  · simp only [Bool.and_eq_true, decide_eq_true_eq]
    exact ⟨fun h ↦ ⟨h.1.le, h.2.le, fun _ ↦ h⟩, fun h ↦ h.2.2 (by omega)⟩

theorem tenTo_le_of_digits {n : Nat} (hn : n ≠ 0) : tenTo ((Nat.toDigits 10 n).length - 1) ≤ n := by
  obtain hone | hmore := Nat.eq_zero_or_pos ((Nat.toDigits 10 n).length - 1)
  · rw [hone]
    exact Nat.one_le_iff_ne_zero.mpr hn
  · by_contra hlt
    have := (Nat.length_toDigits_le_iff (by decide) hmore).mpr (not_le.mp hlt)
    omega

theorem lt_tenTo_digits (n : Nat) : n < tenTo (Nat.toDigits 10 n).length :=
  (Nat.length_toDigits_le_iff (by decide) Nat.length_toDigits_pos).mp le_rfl

theorem zpow_neg_le_div {num den j : Nat} (hden : 0 < den) (h : den ≤ num * tenTo j) :
    (10 : ℚ) ^ (-(j : Int)) ≤ num / den := by
  have hden' : (0 : ℚ) < den := by exact_mod_cast hden
  have hpos : (0 : ℚ) < tenTo j := by
    rw [cast_tenTo]
    positivity
  rw [zpow_neg, zpow_natCast, ← cast_tenTo, inv_le_iff_one_le_mul₀ hpos, div_mul_eq_mul_div,
    one_le_div hden']
  exact_mod_cast h

/-- The first digit of a quotient is not beyond it. -/
theorem zpow_leadingExponent_le {num den : Nat} (hnum : 0 < num) (hden : 0 < den) :
    (10 : ℚ) ^ leadingExponent num den ≤ num / den := by
  rw [leadingExponent]
  split
  · rename_i hle
    have hdigits := tenTo_le_of_digits (Nat.div_pos hle hden).ne'
    have hpos : 0 < (Nat.toDigits 10 (num / den)).length := Nat.length_toDigits_pos
    have hexponent : ((Nat.toDigits 10 (num / den)).length : Int) - 1 =
        ((Nat.toDigits 10 (num / den)).length - 1 : Nat) := by omega
    rw [hexponent, zpow_natCast, ← cast_tenTo, le_div_iff₀ (by exact_mod_cast hden)]
    exact_mod_cast (Nat.le_div_iff_mul_le hden).mp hdigits
  · have hpos : 0 < (Nat.toDigits 10 (den / num)).length := Nat.length_toDigits_pos
    simp only
    split
    · rename_i hle
      have hexponent : -(((Nat.toDigits 10 (den / num)).length : Int) - 1) =
          -((Nat.toDigits 10 (den / num)).length - 1 : Nat) := by omega
      rw [hexponent]
      exact zpow_neg_le_div hden hle
    · refine zpow_neg_le_div hden ?_
      have hlt := Nat.lt_mul_of_div_lt (lt_tenTo_digits (den / num)) hnum
      rw [Nat.mul_comm]
      exact hlt.le

/-- What a grid has for a double is in its interval. -/
theorem holds_of_onGrid? {i : Interval} {k : Int} {d : Decimal} (h : onGrid? i k = some d) :
    i.holds d = true :=
  List.find?_some h

/-- A grid has a point for a double if the nearest one is in its interval. -/
theorem onGrid?_isSome {i : Interval} {k : Int}
    (h : i.holds ⟨roundDiv (i.value * (tenPower k).2) (i.den * (tenPower k).1), k⟩ = true) :
    (onGrid? i k).isSome = true := by
  rw [onGrid?, List.find?_isSome]
  exact ⟨_, List.mem_map_of_mem List.mem_cons_self, h⟩

/-- The nearest point of a grid is no farther than half a step. -/
theorem abs_nearest_sub_le {i : Interval} (hden : 0 < i.den) (k : Int) :
    |(⟨roundDiv (i.value * (tenPower k).2) (i.den * (tenPower k).1), k⟩ : Decimal).value -
      i.value / i.den| ≤ 10 ^ k / 2 := by
  have hp := tenPower_fst_pos k
  have hq := tenPower_snd_pos k
  have hnear := @roundDiv_near (i.value * (tenPower k).2) _ (Nat.mul_pos hden hp)
  rw [value, ← cast_tenPower]
  generalize roundDiv (i.value * (tenPower k).2) (i.den * (tenPower k).1) = n at *
  generalize (tenPower k).1 = p at *
  generalize (tenPower k).2 = q at *
  have hden' : (0 : ℚ) < i.den := by exact_mod_cast hden
  have hq' : (0 : ℚ) < q := by exact_mod_cast hq
  have hlow : (2 * (i.den * p * n) : ℚ) ≤ 2 * (i.value * q) + i.den * p := by exact_mod_cast hnear.1
  have hhigh : (2 * (i.value * q) : ℚ) ≤ 2 * (i.den * p * n) + i.den * p := by
    exact_mod_cast hnear.2
  -- over the common denominator
  have hdiff : (n * (p / q) - i.value / i.den : ℚ) =
      (i.den * p * n - i.value * q) / (i.den * q) := by
    field_simp
  have hhalf : (p / q / 2 : ℚ) = (i.den * p / 2) / (i.den * q) := by
    field_simp
  simp only
  rw [hdiff, hhalf, abs_div, abs_of_pos (mul_pos hden' hq'),
    div_le_div_iff_of_pos_right (mul_pos hden' hq'), abs_le]
  constructor <;> linarith

/-- A number nearer to a double than half of its seventeenth digit is rounded to it. -/
theorem roundsTo_of_near {q : ℚ} (hm : IsStored m e) {k : Int}
    (hk : (10 : ℚ) ^ (k + 16) ≤ 4 * m * 2 ^ (e - 2))
    (hq : |q - 4 * m * 2 ^ (e - 2)| ≤ 10 ^ k / 2) : RoundsTo q m e := by
  have hpos : (0 : ℚ) < 2 ^ (e - 2) := by positivity
  rw [zpow_add₀ (by norm_num)] at hk
  obtain ⟨hq_ge, hq_le⟩ := abs_le.mp hq
  generalize (10 : ℚ) ^ k = step at *
  set quarter : ℚ := 2 ^ (e - 2)
  have hstep : step < 4 * quarter := by
    have hm' : (m : ℚ) ≤ 2 ^ 53 := by exact_mod_cast hm.lt.le
    norm_num at hk
    nlinarith
  have hstep' : step / 2 < reach m e * quarter := by
    rw [reach]
    split
    · rename_i hleast
      rw [hleast.1] at hk
      norm_num at hk ⊢
      linarith
    · rw [Nat.cast_ofNat]
      linarith
  have hlow : (4 * m - reach m e : ℚ) * quarter < q := by linarith
  have hhigh : q < (4 * m + 2 : ℚ) * quarter := by linarith
  exact ⟨hlow.le, hhigh.le, fun _ ↦ hlow, fun _ ↦ hhigh⟩

theorem value_trimmed (digits : Nat) (exponent : Int) (fuel : Nat) :
    (trimmed digits exponent fuel).value = digits * 10 ^ exponent := by
  induction fuel generalizing digits exponent with
  | zero => rfl
  | succ fuel ih =>
    rw [trimmed]
    split
    · rename_i hdigits
      have hten : (digits : ℚ) = (digits / 10 : Nat) * 10 := by
        exact_mod_cast (Nat.div_mul_cancel (Nat.dvd_of_mod_eq_zero hdigits.2)).symm
      rw [ih, zpow_add_one₀ (by norm_num), hten]
      ring
    · rfl

/-- The shortest decimal of a double is rounded to it. -/
theorem roundsTo_shortest (hm : IsStored m e) (hm0 : m ≠ 0) : RoundsTo (shortest m e).value m e := by
  obtain ⟨unit, den, hunit_pos, hden, hunit, hinterval⟩ := interval_eq m e
  have hden' : 0 < (interval m e).den := by rwa [hinterval]
  have hvalue : ((interval m e).value : ℚ) / (interval m e).den = 4 * m * 2 ^ (e - 2) := by
    rw [hinterval, ← hunit]
    push_cast
    ring
  have hvalue_pos : 0 < (interval m e).value := by
    rw [hinterval]
    positivity
  set top := leadingExponent (interval m e).value (interval m e).den with htop
  have hgrid : (onGrid? (interval m e) (top - (16 : Nat))).isSome = true := by
    apply onGrid?_isSome
    rw [holds_interval hm0]
    refine roundsTo_of_near hm ?_ (hvalue ▸ abs_nearest_sub_le hden' _)
    rw [← hvalue, show top - (16 : Nat) + 16 = top by simp]
    exact zpow_leadingExponent_le hvalue_pos hden'
  obtain ⟨d, hd⟩ : ∃ d, (List.range 17).findSome?
      (fun (k : Nat) ↦ onGrid? (interval m e) (top - k)) = some d := by
    rw [← Option.isSome_iff_exists, List.findSome?_isSome_iff]
    exact ⟨16, by simp, hgrid⟩
  obtain ⟨k, -, hk⟩ := List.exists_of_findSome?_eq_some hd
  rw [shortest, ← htop, hd, Option.getD_some, value_trimmed]
  exact (holds_interval hm0 d).mp (holds_of_onGrid? hk)

theorem two_pow_1024_le : (2 : ℚ) ^ (1024 : Int) ≤ 10 ^ (400 : Int) := by
  calc (2 : ℚ) ^ (1024 : Int) = (2 ^ (64 : Int)) ^ (16 : Int) := by rw [← zpow_mul]; rfl
    _ ≤ (10 ^ (25 : Int)) ^ (16 : Int) := zpow_le_zpow_left₀ (by norm_num) (by norm_num) (by norm_num)
    _ = 10 ^ (400 : Int) := by rw [← zpow_mul]; rfl

theorem ten_pow_neg_400_le : (10 : ℚ) ^ (-400 : Int) ≤ 2 ^ (-1075 : Int) := by
  have h : (2 : ℚ) ^ (1075 : Int) ≤ 10 ^ (400 : Int) := by
    calc (2 : ℚ) ^ (1075 : Int) = (2 ^ (43 : Int)) ^ (25 : Int) := by rw [← zpow_mul]; rfl
      _ ≤ (10 ^ (16 : Int)) ^ (25 : Int) := zpow_le_zpow_left₀ (by norm_num) (by norm_num) (by norm_num)
      _ = 10 ^ (400 : Int) := by rw [← zpow_mul]; rfl
  rw [zpow_neg, zpow_neg]
  exact inv_anti₀ (by positivity) h

/-- The digits of a decimal place it between powers of ten. -/
theorem value_bounds {d : Decimal} (hd : d.digits ≠ 0) :
    10 ^ (d.exponent + (Nat.toDigits 10 d.digits).length - 1) ≤ d.value ∧
      d.value < 10 ^ (d.exponent + (Nat.toDigits 10 d.digits).length) := by
  have hpos : 0 < (Nat.toDigits 10 d.digits).length := Nat.length_toDigits_pos
  have hge := tenTo_le_of_digits hd
  have hlt := lt_tenTo_digits d.digits
  generalize (Nat.toDigits 10 d.digits).length = count at *
  have hpower : (0 : ℚ) < 10 ^ d.exponent := by positivity
  rw [value, show d.exponent + count - 1 = (count - 1 : Nat) + d.exponent by omega,
    add_comm d.exponent, zpow_add₀ (by norm_num), zpow_add₀ (by norm_num), zpow_natCast,
    zpow_natCast, ← cast_tenTo, ← cast_tenTo]
  constructor
  · gcongr
  · gcongr

theorem two_pow_le_of_roundsTo {q : ℚ} (hm : IsStored m e) (hm0 : m ≠ 0) (h : RoundsTo q m e) :
    (2 : ℚ) ^ (-1075 : Int) ≤ q := by
  have hm' : (1 : ℚ) ≤ m := by exact_mod_cast Nat.one_le_iff_ne_zero.mpr hm0
  have hreach : (reach m e : ℚ) ≤ 2 := by
    rw [reach]
    split <;> norm_num
  calc (2 : ℚ) ^ (-1075 : Int) ≤ 2 ^ (e - 1) :=
        zpow_le_zpow_right₀ one_le_two (by have := hm.least; omega)
    _ = 2 * 2 ^ (e - 2) := by
        rw [← zpow_one_add₀ two_ne_zero]
        congr 1
        ring
    _ ≤ (4 * m - reach m e) * 2 ^ (e - 2) := by
        gcongr
        linarith
    _ ≤ q := h.low_le

/-- A decimal that is rounded to a double makes that double. -/
theorem toFloat_eq {d : Decimal} (hm : IsStored m e) (hm0 : m ≠ 0) (h : RoundsTo d.value m e) :
    d.toFloat = magnitude m e := by
  have hleast := two_pow_le_of_roundsTo hm hm0 h
  have hgreatest : d.value < 2 ^ (1024 : Int) :=
    (h.lt hm).trans_le (zpow_le_zpow_right₀ one_le_two (by have := hm.greatest; omega))
  have hdigits : d.digits ≠ 0 := by
    intro hzero
    rw [value, hzero, Nat.cast_zero, zero_mul] at hleast
    exact absurd hleast (not_le.mpr (by positivity))
  obtain ⟨hge, hlt⟩ := value_bounds hdigits
  -- the number of digits keeps both shortcuts away
  have hlow := (zpow_lt_zpow_iff_right₀ (by norm_num)).mp
    ((ten_pow_neg_400_le.trans hleast).trans_lt hlt)
  have hhigh := (zpow_lt_zpow_iff_right₀ (by norm_num)).mp
    (hge.trans_lt (hgreatest.trans_le two_pow_1024_le))
  have hp := tenPower_fst_pos d.exponent
  have hq := tenPower_snd_pos d.exponent
  rw [value_eq] at h
  rw [toFloat, if_neg hdigits, if_neg (by omega), if_neg (by omega)]
  simp only
  rw [nearest?_eq (Nat.mul_ne_zero hdigits hp.ne') hq.ne' hm h, Option.getD_some]

end Decimal

end MessageExtraction
