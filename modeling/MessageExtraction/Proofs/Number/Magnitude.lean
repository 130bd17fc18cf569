import MessageExtraction.Proofs.Number.Doubles

/-!
A finite double is its sign and the positive double of its mantissa and exponent.
-/

namespace MessageExtraction.Binary

section Negation

open Float.Model (Format)
open Float.Model.UnpackedFloat

theorem unpack_neg {spec : Format} (s : Sign) (e : BitVec spec.exponentBits)
    (m : BitVec spec.mantissaBitsWithoutImplicit) :
    unpack spec (packComponents spec (-s) e m) = (unpack spec (packComponents spec s e m)).neg := by
  unfold unpack
  simp only [unpackMantissa_packComponents, unpackExponent_packComponents,
    unpackSign_packComponents, Sign.ofBitVec_toBitVec]
  split
  · split <;> rfl
  · split
    · split <;> rfl
    · rfl

theorem toNat_packComponents (s : Sign) (e : BitVec 11) (m : BitVec 52) :
    (packComponents .binary64 s e m).toNat =
      s.toBitVec.toNat * 2 ^ 63 + e.toNat * 2 ^ 52 + m.toNat := by
  have he : s.toBitVec.toNat <<< 11 ||| e.toNat = s.toBitVec.toNat * 2 ^ 11 + e.toNat := by
    rw [← Nat.shiftLeft_add_eq_or_of_lt e.isLt, Nat.shiftLeft_eq]
  have hm (a : Nat) : a <<< 52 ||| m.toNat = a * 2 ^ 52 + m.toNat := by
    rw [← Nat.shiftLeft_add_eq_or_of_lt m.isLt, Nat.shiftLeft_eq]
  refine (BitVec.toNat_append (s.toBitVec ++ e) m).trans ?_
  rw [hm, BitVec.toNat_append, he]
  omega

/-- Bits that are no `NaN` are those of a double. -/
theorem toBits_ofBits {b : UInt64} (h : @isNaNBits .binary64 b.toBitVec = false) : (Float.ofBits b).toBits = b := by
  apply UInt64.toBitVec_inj.mp
  refine (@pack_unpack .binary64 b.toBitVec (by decide)).trans ?_
  rw [h]
  rfl

theorem toBits_ofNat {bits : Nat} (h : bits < 2047 * 2 ^ 52) :
    (Float.ofBits (UInt64.ofNat bits)).toBits.toNat = bits := by
  have hbits : (UInt64.ofNat bits).toNat = bits := by
    rw [UInt64.toNat_ofNat']
    exact Nat.mod_eq_of_lt (by omega)
  obtain ⟨s, e, m, hx⟩ : ∃ (s : Sign) (e : BitVec 11) (m : BitVec 52),
      packComponents .binary64 s e m = (UInt64.ofNat bits).toBitVec :=
    ⟨_, _, _, @packComponents_unpackSign_unpackExponent_unpackMantissa .binary64 _⟩
  have hnat := congrArg BitVec.toNat hx
  rw [toNat_packComponents, UInt64.toNat_toBitVec, hbits] at hnat
  have hnan : @isNaNBits .binary64 (UInt64.ofNat bits).toBitVec = false := by
    rw [← hx, isNaNBits, decide_eq_false_iff_not, unpackExponent_packComponents]
    intro hall
    have he : e.toNat = 2047 := congrArg BitVec.toNat hall.1
    omega
  rw [toBits_ofBits hnan, hbits]

/-- The one `NaN` has no sign, so what has one is a number without it too. -/
theorem isNaNBits_positive {x : Float} {e : BitVec 11} {m : BitVec 52}
    (h : packComponents .binary64 .negative e m = x.toBits.toBitVec) :
    isNaNBits (packComponents .binary64 .positive e m) = false := by
  rw [Bool.eq_false_iff]
  intro hnan
  have hnan' : isNaNBits (packComponents .binary64 .negative e m) = true := by
    simpa only [isNaNBits, unpackExponent_packComponents, unpackMantissa_packComponents] using hnan
  rw [isNaNBits, decide_eq_true_eq, h] at hnan'
  have hvalid : Format.binary64.Valid x.toBits.toBitVec := x.toModel.valid
  have hsign := congrArg (@unpackSign .binary64) (hvalid.eq_packedNaN hnan'.1 hnan'.2)
  rw [← h, unpackSign_packComponents] at hsign
  revert hsign
  decide

/-- A double whose sign bit is set is the one without it, negated. -/
theorem neg_ofBits {x : Float} {bits : Nat} (h : x.toBits.toNat = 2 ^ 63 + bits) :
    -Float.ofBits (UInt64.ofNat bits) = x := by
  obtain ⟨s, e, m, hx⟩ : ∃ (s : Sign) (e : BitVec 11) (m : BitVec 52),
      packComponents .binary64 s e m = x.toBits.toBitVec :=
    ⟨_, _, _, @packComponents_unpackSign_unpackExponent_unpackMantissa .binary64 _⟩
  have hlt := x.toBits.toNat_lt
  have he := e.isLt
  have hm := m.isLt
  have hnat := congrArg BitVec.toNat hx
  rw [toNat_packComponents, UInt64.toNat_toBitVec, h] at hnat
  cases s with
  | positive =>
    change 0 * 2 ^ 63 + e.toNat * 2 ^ 52 + m.toNat = 2 ^ 63 + bits at hnat
    omega
  | negative =>
    change 1 * 2 ^ 63 + e.toNat * 2 ^ 52 + m.toNat = 2 ^ 63 + bits at hnat
    have hbits : (UInt64.ofNat bits).toBitVec = packComponents .binary64 .positive e m := by
      apply BitVec.eq_of_toNat_eq
      rw [toNat_packComponents, UInt64.toNat_toBitVec, UInt64.toNat_ofNat']
      change bits % 2 ^ 64 = 0 * 2 ^ 63 + e.toNat * 2 ^ 52 + m.toNat
      omega
    have hpositive : (Float.ofBits (UInt64.ofNat bits)).toBits.toBitVec =
        packComponents .binary64 .positive e m := by
      rw [toBits_ofBits (by rw [hbits, isNaNBits_positive hx]), hbits]
    apply Float.toBits_inj.mp
    apply UInt64.toBitVec_inj.mp
    calc (-Float.ofBits (UInt64.ofNat bits)).toBits.toBitVec
        = pack .binary64
            (unpack .binary64 (Float.ofBits (UInt64.ofNat bits)).toBits.toBitVec).neg := rfl
      _ = pack .binary64 (unpack .binary64 (packComponents .binary64 (-.positive) e m)) := by
          rw [hpositive, ← unpack_neg]
      _ = pack .binary64 (unpack .binary64 x.toBits.toBitVec) := by rw [← hx]; rfl
      _ = x.toBits.toBitVec := pack_unpack_of_valid x.toModel.valid

end Negation

/-- What mantissa and exponent of a finite double can be. -/
structure IsStored (m : Nat) (e : Int) : Prop where
  lt : m < 2 ^ 53
  least : -1074 ≤ e
  greatest : e ≤ 971
  normal : 2 ^ 52 ≤ m ∨ e = -1074

/-- The positive double of a mantissa and an exponent. -/
def magnitude (m : Nat) (e : Int) : Float :=
  if m < twoTo 52 then Float.ofBits (UInt64.ofNat m)
  else Float.ofBits (UInt64.ofNat ((e + 1075).toNat * twoTo 52 + (m - twoTo 52)))

theorem magnitude_zero : magnitude 0 (-1074) = 0 := by decide

theorem power_lt_of_finite {x : Float} {negative : Bool} {m : Nat} {e : Int}
    (h : ofFloat x = .finite negative m e) : e ≤ 971 := by
  have hbits := x.toBits.toNat_lt
  have h52 : twoTo 52 = 4503599627370496 := by decide
  have h11 : twoTo 11 = 2048 := by decide
  rw [ofFloat] at h
  generalize x.toBits.toNat = bits at h hbits
  simp only [h52, h11] at h
  split at h
  · split at h <;> cases h
  split at h
  · cases h
    omega
  · cases h
    omega

theorem isStored_of_finite {x : Float} {negative : Bool} {m : Nat} {e : Int}
    (h : ofFloat x = .finite negative m e) : IsStored m e := by
  have hgreatest := power_lt_of_finite h
  obtain ⟨power, fraction, -, hfraction, ⟨-, rfl, rfl⟩ | ⟨hpower, rfl, rfl⟩⟩ := ofFloat_eq_finite h
  · exact ⟨by omega, by omega, by omega, .inr rfl⟩
  · exact ⟨by omega, by omega, hgreatest, .inl (by omega)⟩

/-- A finite double is told by its sign, its mantissa and its exponent. -/
theorem signed_magnitude {x : Float} {negative : Bool} {m : Nat} {e : Int}
    (h : ofFloat x = .finite negative m e) : signed negative (magnitude m e) = x := by
  obtain ⟨power, fraction, hbits, hfraction, hparts⟩ := ofFloat_eq_finite h
  have h52 : twoTo 52 = 2 ^ 52 := rfl
  have hmagnitude : magnitude m e = Float.ofBits (UInt64.ofNat (power * 2 ^ 52 + fraction)) := by
    rw [magnitude, h52]
    obtain ⟨hpower, rfl, rfl⟩ | ⟨hpower, rfl, rfl⟩ := hparts
    · rw [if_pos hfraction, hpower, Nat.zero_mul, Nat.zero_add]
    · rw [if_neg (by omega), Nat.add_sub_cancel_left]
      congr 4
      omega
  rw [hmagnitude]
  cases negative with
  | true => exact neg_ofBits (by rw [hbits, if_pos rfl, Nat.add_assoc])
  | false =>
    have hx : UInt64.ofNat (power * 2 ^ 52 + fraction) = x.toBits := by
      rw [← UInt64.ofNat_toNat (x := x.toBits), hbits, if_neg Bool.false_ne_true, Nat.zero_add]
    rw [signed, hx, Float.ofBits_toBits]
    rfl

/-- The double of a mantissa and an exponent has these. -/
theorem ofFloat_magnitude {m : Nat} {e : Int} (hm : IsStored m e) :
    ofFloat (magnitude m e) = .finite false m e := by
  obtain ⟨hlt, hleast, hgreatest, hnormal⟩ := hm
  have h52 : twoTo 52 = 4503599627370496 := by decide
  have h63 : twoTo 63 = 9223372036854775808 := by decide
  have h11 : twoTo 11 = 2048 := by decide
  obtain ⟨bits, hmagnitude, hbits, hparts⟩ : ∃ bits, magnitude m e = Float.ofBits (UInt64.ofNat bits) ∧
      bits < 2047 * 2 ^ 52 ∧ (bits / 2 ^ 52 = 0 ∧ bits % 2 ^ 52 = m ∧ e = -1074 ∨
        (bits / 2 ^ 52 : Nat) = e + 1075 ∧ bits / 2 ^ 52 ≠ 0 ∧ 2 ^ 52 + bits % 2 ^ 52 = m) := by
    rw [magnitude, h52]
    split
    · exact ⟨m, rfl, by omega, by omega⟩
    · exact ⟨(e + 1075).toNat * 4503599627370496 + (m - 4503599627370496), rfl, by omega, by omega⟩
  rw [ofFloat, hmagnitude, toBits_ofNat hbits]
  simp only [h52, h63, h11]
  have hsign : (bits / 9223372036854775808 == 1) = false := by
    rw [beq_eq_false_iff_ne]
    omega
  rw [hsign, if_neg (by omega)]
  obtain ⟨hpower, hfraction, rfl⟩ | ⟨hpower, hne, hfraction⟩ := hparts
  · rw [if_pos (by omega)]
    congr 1
  · rw [if_neg (by omega)]
    congr 1
    omega

theorem eq_of_infinite {x : Float} {negative : Bool} (h : ofFloat x = .infinite negative) :
    x = if negative then -1 / 0 else 1 / 0 := by
  have hbits := x.toBits.toNat_lt
  have h52 : twoTo 52 = 4503599627370496 := by decide
  have h63 : twoTo 63 = 9223372036854775808 := by decide
  have h11 : twoTo 11 = 2048 := by decide
  apply eq_of_toBits_toNat
  rw [ofFloat] at h
  generalize x.toBits.toNat = bits at h hbits ⊢
  simp only [h52, h63, h11] at h
  split at h
  · split at h
    · rename_i hpower hfraction
      have hnegative : (1 / 0 : Float).toBits.toNat = 9218868437227405312 := by decide
      have hpositive : (-1 / 0 : Float).toBits.toNat = 18442240474082181120 := by decide
      obtain rfl := Binary.infinite.inj h
      split <;> rename_i hsign <;> simp only [beq_iff_eq] at hsign <;> omega
    · cases h
  · split at h <;> cases h

end MessageExtraction.Binary
