import MessageExtraction.Proofs.Text.Digits

/-!
The spellings of a natural number. A literal that announces its base is the number itself, and a decimal
one is the double nearest to it, so that all spellings of a number have one value exactly when the number
is a double.
-/

namespace MessageExtraction

namespace Binary

/-- A natural number that is a double: 53 bits are enough for it, and it is not too large. -/
def IsDouble (n : Nat) : Prop := n < twoTo 1024 ∧ ∃ m e, m < twoTo 53 ∧ n = m * twoTo e

theorem twoTo_pos (n : Nat) : 0 < twoTo n := Nat.two_pow_pos n

theorem twoTo_le {a b : Nat} (h : a ≤ b) : twoTo a ≤ twoTo b := Nat.pow_le_pow_right (by decide) h

theorem twoTo_lt {a b : Nat} : twoTo a < twoTo b ↔ a < b := Nat.pow_lt_pow_iff_right (by decide)

theorem isDouble_of_toInt? {x : Float} {n : Nat} (h : toInt? x = some (n : Int)) : IsDouble n := by
  rw [toInt?] at h
  split at h
  · rename_i negative m e hfinite
    obtain ⟨hlt, -, hgreatest, -⟩ := isStored_of_finite hfinite
    obtain ⟨v', hv', hn⟩ := Option.map_eq_some_iff.mp h
    obtain ⟨v, hv, hcast⟩ := Option.bind_eq_some_iff.mp hv'
    obtain rfl := Option.some.inj hcast
    have hvn : v = n := by
      split at hn <;> omega
    subst hvn
    split at hv
    · obtain rfl := Option.some.inj hv
      refine ⟨?_, m, e.toNat, hlt, rfl⟩
      calc m * twoTo e.toNat < twoTo 53 * twoTo e.toNat := Nat.mul_lt_mul_of_pos_right hlt (twoTo_pos _)
        _ = twoTo (53 + e.toNat) := (twoTo_add _ _).symm
        _ ≤ twoTo 1024 := twoTo_le (by omega)
    split at hv
    · obtain rfl := Option.some.inj hv
      have hle : m / twoTo e.natAbs < twoTo 53 := (Nat.div_le_self _ _).trans_lt hlt
      exact ⟨hle.trans (twoTo_lt.mpr (by decide)), _, 0, hle, (Nat.mul_one _).symm⟩
    · cases hv
  · cases h

/-- A positive number that is a double, by the mantissa and the exponent that are stored. -/
theorem IsDouble.exists_isStored {n : Nat} (h : IsDouble n) (hn : n ≠ 0) :
    ∃ (m : Nat) (e : Int), IsStored m e ∧ m ≠ 0 ∧ (n : ℚ) = m * 2 ^ e := by
  obtain ⟨hlt, m, k, hm, hmk⟩ := h
  have hlow : twoTo n.log2 ≤ n := Nat.log2_self_le hn
  have hhigh : n < twoTo (n.log2 + 1) := Nat.lt_log2_self
  have hgreatest : n.log2 < 1024 := twoTo_lt.mp (hlow.trans_lt hlt)
  generalize n.log2 = b at hlow hhigh hgreatest
  obtain hb | hb := Nat.le_total b 52
  · -- the number has to be shifted to have 53 bits
    have hsplit : twoTo 52 = twoTo b * twoTo (52 - b) := by
      rw [← twoTo_add, Nat.add_sub_cancel' hb]
    have hsplit' : twoTo 53 = twoTo (b + 1) * twoTo (52 - b) := by
      rw [← twoTo_add]
      congr 1
      omega
    have hge : twoTo 52 ≤ n * twoTo (52 - b) := hsplit ▸ Nat.mul_le_mul_right _ hlow
    refine ⟨n * twoTo (52 - b), (b : Int) - 52, ⟨?_, by omega, by omega, .inl hge⟩, ?_, ?_⟩
    · exact (Nat.mul_lt_mul_of_pos_right hhigh (twoTo_pos _)).trans_eq hsplit'.symm
    · exact (Nat.mul_pos (Nat.pos_of_ne_zero hn) (twoTo_pos _)).ne'
    · rw [Nat.cast_mul, cast_twoTo, mul_assoc, ← zpow_natCast, ← zpow_add₀ two_ne_zero,
        show ((52 - b : Nat) : Int) + ((b : Int) - 52) = 0 by omega, zpow_zero, mul_one]
  · -- the number has 53 bits and zeros after them
    have hbk : b < 53 + k := by
      apply twoTo_lt.mp
      rw [twoTo_add]
      exact hlow.trans_lt (hmk ▸ Nat.mul_lt_mul_of_pos_right hm (twoTo_pos _))
    have hdvd : twoTo (b - 52) ∣ n := by
      rw [hmk, show k = b - 52 + (k - (b - 52)) by omega, twoTo_add]
      exact (Nat.dvd_mul_right _ _).mul_left m
    obtain ⟨q, hq⟩ := hdvd
    have hpos := twoTo_pos (b - 52)
    have hge : twoTo 52 ≤ q := by
      apply Nat.le_of_mul_le_mul_left _ hpos
      rwa [← hq, ← twoTo_add, Nat.sub_add_cancel hb]
    refine ⟨q, (b : Int) - 52, ⟨?_, by omega, by omega, .inl hge⟩, ?_, ?_⟩
    · apply Nat.lt_of_mul_lt_mul_left (a := twoTo (b - 52))
      rw [← hq]
      change n < twoTo (b - 52) * twoTo 53
      rwa [← twoTo_add, show b - 52 + 53 = b + 1 by omega]
    · exact ((twoTo_pos 52).trans_le hge).ne'
    · rw [hq, Nat.cast_mul, cast_twoTo, mul_comm, ← zpow_natCast]
      congr 2
      omega

/-- A double is rounded to itself. -/
theorem roundsTo_self (m : Nat) (e : Int) : RoundsTo (m * 2 ^ e) m e := by
  have hpos : (0 : ℚ) < 2 ^ (e - 2) := by positivity
  have hreach : (1 : ℚ) ≤ reach m e := by
    rw [reach]
    split <;> norm_num
  have hq : (m : ℚ) * 2 ^ e = 4 * m * 2 ^ (e - 2) := by
    rw [show e = 2 + (e - 2) by ring, zpow_add₀ two_ne_zero, show 2 + (e - 2) - 2 = e - 2 by ring]
    norm_num
    ring
  have hlow : (4 * m - reach m e : ℚ) * 2 ^ (e - 2) < m * 2 ^ e := by
    rw [hq]
    gcongr
    linarith
  have hhigh : (m : ℚ) * 2 ^ e < (4 * m + 2) * 2 ^ (e - 2) := by
    rw [hq]
    gcongr
    linarith
  exact ⟨hlow.le, hhigh.le, fun _ ↦ hlow, fun _ ↦ hhigh⟩

theorem toInt?_magnitude {n m : Nat} {e : Int} (hm : IsStored m e) (hn : (n : ℚ) = m * 2 ^ e) :
    toInt? (magnitude m e) = some (n : Int) := by
  have hvalue : (if 0 ≤ e then some (m * twoTo e.toNat)
      else if m % twoTo e.natAbs = 0 then some (m / twoTo e.natAbs) else none) = some n := by
    split
    · rename_i he
      congr 1
      have hcast : ((m * twoTo e.toNat : Nat) : ℚ) = n := by
        rw [Nat.cast_mul, cast_twoTo, hn, ← zpow_natCast, Int.toNat_of_nonneg he]
      exact_mod_cast hcast
    · rename_i he
      have hmul : m = n * twoTo e.natAbs := by
        have hcast : (m : ℚ) = (n * twoTo e.natAbs : Nat) := by
          rw [Nat.cast_mul, cast_twoTo, hn, mul_assoc, ← zpow_natCast, ← zpow_add₀ two_ne_zero,
            show e + (e.natAbs : Int) = 0 by omega, zpow_zero, mul_one]
        exact_mod_cast hcast
      rw [hmul, if_pos (Nat.mul_mod_left _ _), Nat.mul_div_cancel _ (twoTo_pos _)]
  rw [toInt?, ofFloat_magnitude hm]
  simp only [hvalue]
  rfl

/-- The double nearest to a number is the number exactly when it is a double. -/
theorem toInt?_toFloat_iff (n : Nat) :
    toInt? (Decimal.toFloat ⟨n, 0⟩) = some (n : Int) ↔ IsDouble n := by
  refine ⟨isDouble_of_toInt?, fun h ↦ ?_⟩
  by_cases hn : n = 0
  · subst hn
    exact toInt?_zero
  · obtain ⟨m, e, hm, hm0, hvalue⟩ := h.exists_isStored hn
    have hround : RoundsTo (Decimal.value ⟨n, 0⟩) m e := by
      rw [Decimal.value, zpow_zero, mul_one, hvalue]
      exact roundsTo_self m e
    rw [Decimal.toFloat_eq hm hm0 hround]
    exact toInt?_magnitude hm hvalue

end Binary

namespace Text

variable {base n : Nat} {value? : CodePoint → Option Nat}

theorem exists_value_of_positional? {t : Text} (h : positional? base value? t = some n) :
    ∀ c ∈ t, ∃ d, value? c = some d := by
  induction t using List.reverseRecOn generalizing n with
  | nil => exact fun c hc ↦ absurd hc List.not_mem_nil
  | append_singleton t c ih =>
    rw [positional?_concat] at h
    obtain ⟨m, hm, hc⟩ := Option.bind_eq_some_iff.mp h
    obtain ⟨d, hd, -⟩ := Option.map_eq_some_iff.mp hc
    intro c' hc'
    obtain hc' | hc' := List.mem_append.mp hc'
    · exact ih hm c' hc'
    · obtain rfl := List.mem_singleton.mp hc'
      exact ⟨d, hd⟩

theorem lower_lower (t : Text) : lower (lower t) = lower t := by
  rw [lower, lower, List.map_map]
  apply List.map_congr_left
  intro c _
  unfold Function.comp CodePoint.lower CodePoint
  grind

theorem SpellsIn.lower {ds : Text} (h : SpellsIn base ds n) : SpellsIn base (Text.lower ds) n := by
  rw [SpellsIn, lower_lower]
  exact h

theorem SpellsIn.cons_zero {ds : Text} (h : SpellsIn base ds n) : SpellsIn base (0x30 :: ds) n := by
  obtain ⟨zeros, hds⟩ := h
  refine ⟨zeros + 1, ?_⟩
  rw [List.replicate_succ, List.cons_append, ← hds]
  rfl

theorem lower_ofNat (n : Nat) : Text.lower (ofNat n) = ofNat n := by
  have hlower : ∀ c ∈ ofNat n, CodePoint.lower c = id c := forall_mem_ofNat (by decide) n
  rw [Text.lower, List.map_congr_left hlower, List.map_id]

theorem spellsIn_ofNat (n : Nat) : SpellsIn 10 (ofNat n) n := ⟨0, lower_ofNat n⟩

end Text

namespace Number

open Text

/-- The digits up to sixteen, of either letter case. -/
def IsHexDigit (c : Nat) : Prop :=
  0x30 ≤ c ∧ c ≤ 0x39 ∨ 0x41 ≤ c ∧ c ≤ 0x46 ∨ 0x61 ≤ c ∧ c ≤ 0x66

theorem isHexDigit_of_digitIn? {base c d : Nat} (hbase : base ≤ 16) (h : digitIn? base c = some d) :
    IsHexDigit c ∧ (base ≤ 10 → 0x30 ≤ c ∧ c < 0x30 + base) := by
  obtain ⟨hvalue, hlt⟩ := Option.filter_eq_some_iff.mp h
  rw [decide_eq_true_eq] at hlt
  unfold anyDigitValue? CodePoint.digitValue? CodePoint at hvalue
  rw [IsHexDigit]
  grind

theorem isHexDigit_of_mem {base n : Nat} {ds : Text} (hbase : 1 < base) (hbase' : base ≤ 16)
    (h : SpellsIn base ds n) (c : Nat) (hc : c ∈ ds) :
    IsHexDigit c ∧ (base ≤ 10 → 0x30 ≤ c ∧ c < 0x30 + base) := by
  obtain ⟨d, hd⟩ := exists_value_of_positional? (positional?_of_spellsIn (readsBase_digitIn? hbase hbase') h) c hc
  exact isHexDigit_of_digitIn? hbase' hd

theorem isHexDigit_of_mem_ofNat {n : Nat} (c : Nat) (hc : c ∈ ofNat n) : IsHexDigit c :=
  (isHexDigit_of_mem (by decide) (by decide) (spellsIn_ofNat n) c hc).1

/-- What stands in a literal of a natural number: digits and the letters that announce a base. -/
def IsLiteralPoint (c : Nat) : Prop := IsHexDigit c ∨ c = 0x78 ∨ c = 0x6F

theorem plain_eq_self {t : Text} (h : ∀ c ∈ t, IsLiteralPoint c) : plain t = t := by
  have hpoint (c : Nat) (hc : IsLiteralPoint c) : plainPoint c = c ∧ isSpacing c = false := by
    simp only [IsLiteralPoint, IsHexDigit] at hc
    constructor
    · unfold plainPoint
      exact if_pos (by unfold CodePoint; omega)
    · unfold isSpacing CodePoint.space CodePoint
      grind
  have hdrop (t : Text) (h : ∀ c ∈ t, IsLiteralPoint c) : t.dropWhile isSpacing = t := by
    cases t with
    | nil => rfl
    | cons c t => exact List.dropWhile_cons_of_neg (by simp [(hpoint c (h c List.mem_cons_self)).2])
  have hmap : t.map plainPoint = t := by
    rw [List.map_congr_left (g := id) fun c hc ↦ (hpoint c (h c hc)).1, List.map_id]
  rw [plain, hmap, hdrop t h, dropEndWhile, hdrop _ (fun c hc ↦ h c (List.mem_reverse.mp hc)),
    List.reverse_reverse]

/-- A literal without the separators between its digits. -/
def unseparated (t : Text) : Text := t.filter (· != CodePoint.underscore)

/-- The letters that announce a base after a zero. -/
def baseMarks : List (CodePoint × Nat) :=
  [(0x78, 16), (0x58, 16), (0x6F, 8), (0x4F, 8), (0x62, 2), (0x42, 2)]

/-- A spelling of a natural number that announces its base, by a zero and a letter or as an old octal by a
zero alone. -/
inductive Announces (n : Nat) : Text → Prop
  | marked {mark : CodePoint} {base : Nat} {ds : Text} : (mark, base) ∈ baseMarks → SpellsIn base ds n →
      Announces n (0x30 :: mark :: ds)
  | oldOctal {ds : Text} : SpellsIn 8 ds n → Announces n (0x30 :: ds)

theorem baseMarks_spec : ∀ mb ∈ baseMarks, markedBase? mb.1 = some mb.2 ∧
    markedBase? (CodePoint.lower mb.1) = some mb.2 ∧ IsLiteralPoint (CodePoint.lower mb.1) ∧
    1 < mb.2 ∧ mb.2 ≤ 16 := by
  unfold IsLiteralPoint IsHexDigit
  decide

variable {n : Nat} {t ds : Text}

theorem getLast?_ne_letterN (first : Text) (hne : ds ≠ []) (h : ∀ c ∈ ds, IsHexDigit c) :
    (first ++ ds).getLast? ≠ some CodePoint.letterN := by
  rw [List.getLast?_append_of_ne_nil _ hne]
  intro hlast
  have hdigit := h _ (List.mem_of_getLast? hlast)
  unfold IsHexDigit at hdigit
  revert hdigit
  decide

theorem integer_marked {mark : CodePoint} {base : Nat} (hmark : markedBase? mark = some base)
    (hpoint : IsLiteralPoint mark) (hbase : 1 < base) (hbase' : base ≤ 16) (h : SpellsIn base ds n) :
    integer (0x30 :: mark :: ds) = .ok n := by
  have hpoints : ∀ c ∈ (0x30 :: mark :: ds : Text), IsLiteralPoint c := by
    rw [List.forall_mem_cons, List.forall_mem_cons]
    exact ⟨.inl (by rw [IsHexDigit]; omega), hpoint,
      fun c hc ↦ .inl (isHexDigit_of_mem hbase hbase' h c hc).1⟩
  have hsign : takeSign (0x30 :: mark :: ds) = (false, 0x30 :: mark :: ds) := rfl
  have hannounced : announced? (0x30 :: mark :: ds) = some n := by
    rw [announced?, hmark]
    exact digits?_of_spellsIn hbase hbase' h
  have hunmarked : isUnmarked (0x30 :: mark :: ds) = false := by
    rw [isUnmarked, hmark]
    rfl
  rw [integer, plain_eq_self hpoints, hsign]
  simp only [hannounced, hunmarked]
  rfl

theorem literal_marked {mark : CodePoint} {base : Nat} (hmark : (mark, base) ∈ baseMarks)
    (h : SpellsIn base ds n) (ht : unseparated t = 0x30 :: mark :: ds) : literal t = .ok (.int n) := by
  obtain ⟨hbase, hlower, hpoint, hlt, hle⟩ := baseMarks_spec _ hmark
  have hlast : (0x30 :: mark :: ds : Text).getLast? ≠ some CodePoint.letterN :=
    getLast?_ne_letterN [0x30, mark] h.ne_nil fun c hc ↦ (isHexDigit_of_mem hlt hle h c hc).1
  have hinteger : integer (Text.lower (0x30 :: mark :: ds)) = .ok n :=
    integer_marked hlower hpoint hlt hle h.lower
  have hsecond : (0x30 :: mark :: ds : Text).head? = some 0x30 ∧
      (((0x30 :: mark :: ds : Text)[1]?).bind markedBase?).isSome = true := by
    simp [hbase]
  rw [unseparated] at ht
  rw [literal, ht, if_neg hlast, if_pos hsecond, hinteger]
  rfl

theorem literal_oldOctal (h : SpellsIn 8 ds n) (ht : unseparated t = 0x30 :: ds) :
    literal t = .ok (.int n) := by
  have hds := isHexDigit_of_mem (by decide) (by decide) h
  have hlast : (0x30 :: ds : Text).getLast? ≠ some CodePoint.letterN :=
    getLast?_ne_letterN [0x30] h.ne_nil fun c hc ↦ (hds c hc).1
  obtain ⟨c, rest, rfl⟩ := List.exists_cons_of_ne_nil h.ne_nil
  have hoctal (d : Nat) (hd : d ∈ c :: rest) : 0x30 ≤ d ∧ d ≤ 0x37 := by
    have := (hds d hd).2 (by decide)
    omega
  have hfirst := hoctal c List.mem_cons_self
  have hunmarked : markedBase? c = none := by
    unfold markedBase? CodePoint
    grind
  have hsecond : ¬((0x30 :: c :: rest : Text).head? = some 0x30 ∧
      (((0x30 :: c :: rest : Text)[1]?).bind markedBase?).isSome = true) := by
    simp [hunmarked]
  have hold : isOldOctal (0x30 :: c :: rest) = true := by
    simp only [isOldOctal, List.length_cons, List.head?_cons, BEq.rfl, Bool.and_true, Bool.and_eq_true,
      decide_eq_true_eq, List.all_eq_true]
    refine ⟨by omega, fun d hd ↦ ?_⟩
    obtain rfl | hd := List.mem_cons.mp hd
    · decide
    · exact hoctal d hd
  rw [unseparated] at ht
  rw [literal, ht, if_neg hlast, if_neg hsecond, if_pos hold,
    digits?_of_spellsIn (by decide) (by decide) h.cons_zero, Option.getD_some]

/-- Every announced spelling of a number is the number. -/
theorem literal_of_announces (h : Announces n (unseparated t)) : literal t = .ok (.int n) := by
  generalize ht : unseparated t = u at h
  cases h with
  | marked hmark hds => exact literal_marked hmark hds ht
  | oldOctal hds => exact literal_oldOctal hds ht

theorem fraction?_ofNat (n : Nat) : fraction? (ofNat n) = some ⟨n, 0⟩ := by
  have hdigits : digits? 10 ((Numeral.ofNat n).whole ++ (Numeral.ofNat n).fraction.tail) = some n := by
    simp [Numeral.ofNat, digits?_ofNat]
  have h := fraction?_eq hdigits (show exponent? (Numeral.ofNat n).power = some 0 from rfl)
  rw [Numeral.text_ofNat] at h
  exact h

theorem takeSign_ofNat (n : Nat) : takeSign (ofNat n) = (false, ofNat n) := by
  have hsign (c : Nat) (hc : ¬IsHexDigit c) (rest : Text) : ofNat n ≠ c :: rest := by
    intro h
    exact hc (isHexDigit_of_mem_ofNat c (h ▸ List.mem_cons_self))
  unfold takeSign
  split
  · rename_i rest h
    exact absurd h (hsign _ (by unfold IsHexDigit; decide) rest)
  · rename_i rest h
    exact absurd h (hsign _ (by unfold IsHexDigit; decide) rest)
  · rfl

theorem float_ofNat (n : Nat) : float (ofNat n) = .ok (Decimal.toFloat ⟨n, 0⟩) := by
  have hplain : plain (ofNat n) = ofNat n := plain_eq_self fun c hc ↦ .inl (isHexDigit_of_mem_ofNat c hc)
  have hname (u : Text) (c : Nat) (hmem : c ∈ u) (hc : ¬IsHexDigit c) : (ofNat n == u) = false := by
    rw [beq_eq_false_iff_ne]
    rintro h
    exact hc (isHexDigit_of_mem_ofNat c (h ▸ hmem))
  have hletter : ¬IsHexDigit 0x6E := by
    unfold IsHexDigit
    decide
  have hinfinity : isInfinityName (ofNat n) = false := by
    rw [isInfinityName, hname _ 0x6E (by decide) hletter, hname _ 0x6E (by decide) hletter]
    rfl
  rw [float, hplain, takeSign_ofNat]
  simp only [lower_ofNat, hinfinity, hname (ofString "nan") 0x6E (by decide) hletter, fraction?_ofNat]
  rfl

/-- A decimal spelling of a number is the double nearest to it. -/
theorem literal_of_decimal (ht : unseparated t = ofNat n) : literal t = .ok
    (match Binary.toInt? (Decimal.toFloat ⟨n, 0⟩) with
      | some k => .int k
      | none => .float (Decimal.toFloat ⟨n, 0⟩)) := by
  have hlast : (ofNat n).getLast? ≠ some CodePoint.letterN :=
    getLast?_ne_letterN [] (ofNat_ne_nil n) isHexDigit_of_mem_ofNat
  -- only zero begins with a zero, and nothing follows it
  have hhead : (ofNat n).head? = some 0x30 → ofNat n = [0x30] := by
    intro h
    have hn : n = 0 := by
      by_contra hn
      exact head?_ofNat_ne_zero hn h
    rw [hn]
    rfl
  have hsecond : ¬((ofNat n).head? = some 0x30 ∧
      (((ofNat n)[1]?).bind markedBase?).isSome = true) := by
    rintro ⟨h, hmark⟩
    rw [hhead h] at hmark
    cases hmark
  have hold : ¬isOldOctal (ofNat n) = true := by
    intro h
    simp only [isOldOctal, Bool.and_eq_true, decide_eq_true_eq, beq_iff_eq] at h
    rw [hhead h.1.2] at h
    exact absurd h.1.1 (by decide)
  rw [unseparated] at ht
  rw [literal, ht, if_neg hlast, if_neg hsecond, if_neg hold]
  rw [float_ofNat]
  rfl

/-- Two spellings of a natural number, whatever the separators in them: one that announces its base is
the number, and a decimal one has the same value exactly when the number is a double. -/
theorem spellings_agree_iff {u : Text} (ht : unseparated t = ofNat n) (hu : Announces n (unseparated u)) :
    literal u = .ok (.int n) ∧ (∃ x, literal t = .ok x) ∧
      (literal t = literal u ↔ Binary.IsDouble n) := by
  refine ⟨literal_of_announces hu, ⟨_, literal_of_decimal ht⟩, ?_⟩
  rw [literal_of_decimal ht, literal_of_announces hu, ← Binary.toInt?_toFloat_iff, Except.ok.injEq]
  cases Binary.toInt? (Decimal.toFloat ⟨n, 0⟩) with
  | none => simp
  | some k => simp

theorem powerOfTwo_spellings_agree :
    let decimal : Text := "1_152_921_504_606_846_976"
    let marked : Text := "0X1000_0000_0000_0000"
    unseparated decimal = ofNat 1152921504606846976 ∧ Announces 1152921504606846976 (unseparated marked) ∧
      literal decimal = literal marked := by
  intro decimal marked
  have hdecimal : unseparated decimal = ofNat 1152921504606846976 := by decide
  have hmarked : Announces 1152921504606846976 (unseparated marked) :=
    .marked (show (0x58, 16) ∈ baseMarks by decide) (show SpellsIn 16 "1000000000000000" _ from ⟨0, by decide⟩)
  have hdouble : Binary.IsDouble 1152921504606846976 :=
    ⟨(show _ < Binary.twoTo 61 by decide).trans (Binary.twoTo_lt.mpr (by decide)), 1, 60, by decide, by decide⟩
  exact ⟨hdecimal, hmarked, (spellings_agree_iff hdecimal hmarked).2.2.mpr hdouble⟩

/-- The first natural number that is no double. -/
theorem oddSpellings_disagree :
    let decimal : Text := "9007199254740993"
    let marked : Text := "0x20000000000001"
    unseparated decimal = ofNat 9007199254740993 ∧ Announces 9007199254740993 (unseparated marked) ∧
      literal decimal = .ok (.int 9007199254740992) ∧ literal marked = .ok (.int 9007199254740993) ∧
      literal decimal ≠ literal marked := by
  intro decimal marked
  have hdecimal : unseparated decimal = ofNat 9007199254740993 := by decide
  have hmarked : Announces 9007199254740993 (unseparated marked) :=
    .marked (show (0x78, 16) ∈ baseMarks by decide) (show SpellsIn 16 "20000000000001" _ from ⟨0, by decide⟩)
  have hnearest : Binary.toInt? (Decimal.toFloat ⟨9007199254740993, 0⟩) = some 9007199254740992 := by
    decide +kernel
  have hleft : literal decimal = .ok (.int 9007199254740992) := by
    rw [literal_of_decimal hdecimal, hnearest]
  have hright : literal marked = .ok (.int 9007199254740993) := literal_of_announces hmarked
  refine ⟨hdecimal, hmarked, hleft, hright, ?_⟩
  rw [hleft, hright]
  simp

end Number

end MessageExtraction
