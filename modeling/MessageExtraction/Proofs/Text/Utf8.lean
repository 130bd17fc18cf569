import MessageExtraction.Proofs.Result
import MessageExtraction.Text.Utf8
import Mathlib.Tactic.IntervalCases

/-!
Bytes and text. Strict decoding takes back what encoding makes and nothing else, and the characters of a
text keep their bytes apart: bytes that are a text up to some place are read there as that text.
-/

namespace MessageExtraction.Utf8

/-- The bytes of a character, by their number. No character has two encodings, and no surrogate and
nothing beyond the last code point has one. -/
inductive Encodes : Nat → Bytes → Prop
  | one {b : UInt8} : b.toNat < 0x80 → Encodes b.toNat [b]
  | two {b b₁ : UInt8} {x y : Nat} : b.toNat = 0xC0 + x → b₁.toNat = 0x80 + y → 2 ≤ x → x < 32 →
      y < 64 → Encodes (x * 64 + y) [b, b₁]
  | three {b b₁ b₂ : UInt8} {x y z : Nat} : b.toNat = 0xE0 + x → b₁.toNat = 0x80 + y →
      b₂.toNat = 0x80 + z → x < 16 → y < 64 → z < 64 → (x = 0 → 32 ≤ y) → (x = 13 → y < 32) →
      Encodes ((x * 64 + y) * 64 + z) [b, b₁, b₂]
  | four {b b₁ b₂ b₃ : UInt8} {x y z w : Nat} : b.toNat = 0xF0 + x → b₁.toNat = 0x80 + y →
      b₂.toNat = 0x80 + z → b₃.toNat = 0x80 + w → x < 5 → y < 64 → z < 64 → w < 64 →
      (x = 0 → 16 ≤ y) → (x = 4 → y < 16) → Encodes (((x * 64 + y) * 64 + z) * 64 + w) [b, b₁, b₂, b₃]

theorem toNat_ofNat {n : Nat} (h : n < 256) : (UInt8.ofNat n).toNat = n := by
  rw [UInt8.toNat_ofNat']
  exact Nat.mod_eq_of_lt h

theorem ofNat_eq {n : Nat} {b : UInt8} (h : b.toNat = n) : UInt8.ofNat n = b := by
  rw [← h, UInt8.ofNat_toNat]

theorem encodes_of_encodePoint? {c : Nat} {bytes : Bytes} (h : encodePoint? c = some bytes) :
    Encodes c bytes := by
  have hsurrogate : CodePoint.isSurrogate c = true ↔ 0xD800 ≤ c ∧ c ≤ 0xDFFF := by
    simp [CodePoint.isSurrogate]
  have htail (n : Nat) : (UInt8.ofNat (0x80 + n % 64)).toNat = 0x80 + n % 64 := toNat_ofNat (by omega)
  unfold encodePoint? CodePoint at h
  simp only [hsurrogate] at h
  split at h
  · obtain rfl := Option.some.inj h
    have hc : (UInt8.ofNat c).toNat = c := toNat_ofNat (by omega)
    have hone := Encodes.one (b := UInt8.ofNat c) (by omega)
    rwa [hc] at hone
  split at h
  · obtain rfl := Option.some.inj h
    have htwo := Encodes.two (toNat_ofNat (by omega)) (htail c) (x := c / 64) (by omega) (by omega) (by omega)
    rwa [show c / 64 * 64 + c % 64 = c by omega] at htwo
  split at h
  · cases h
  split at h
  · obtain rfl := Option.some.inj h
    have hthree := Encodes.three (toNat_ofNat (by omega)) (htail (c / 64)) (htail c) (x := c / 4096)
      (by omega) (by omega) (by omega) (by omega) (by omega)
    rwa [show (c / 4096 * 64 + c / 64 % 64) * 64 + c % 64 = c by omega] at hthree
  split at h
  · obtain rfl := Option.some.inj h
    have hfour := Encodes.four (toNat_ofNat (by omega)) (htail (c / 4096)) (htail (c / 64)) (htail c)
      (x := c / 262144) (by omega) (by omega) (by omega) (by omega) (by omega) (by omega)
    rwa [show ((c / 262144 * 64 + c / 4096 % 64) * 64 + c / 64 % 64) * 64 + c % 64 = c by omega] at hfour
  · cases h

theorem encodePoint?_of_encodes {c : Nat} {bytes : Bytes} (h : Encodes c bytes) :
    encodePoint? c = some bytes := by
  have hsurrogate (c : Nat) : CodePoint.isSurrogate c = true ↔ 0xD800 ≤ c ∧ c ≤ 0xDFFF := by
    simp [CodePoint.isSurrogate]
  unfold encodePoint? CodePoint
  simp only [hsurrogate]
  cases h with
  | one hb => rw [if_pos hb, UInt8.ofNat_toNat]
  | @two b b₁ x y hb hb₁ hx hx' hy =>
    have hfirst : UInt8.ofNat (0xC0 + (x * 64 + y) / 64) = b := ofNat_eq (by omega)
    have hsecond : UInt8.ofNat (0x80 + (x * 64 + y) % 64) = b₁ := ofNat_eq (by omega)
    rw [if_neg (by omega), if_pos (by omega), hfirst, hsecond]
  | @three b b₁ b₂ x y z hb hb₁ hb₂ hx hy hz hlow hhigh =>
    generalize hc : (x * 64 + y) * 64 + z = c
    have hfirst : UInt8.ofNat (0xE0 + c / 4096) = b := ofNat_eq (by omega)
    have hsecond : UInt8.ofNat (0x80 + c / 64 % 64) = b₁ := ofNat_eq (by omega)
    have hthird : UInt8.ofNat (0x80 + c % 64) = b₂ := ofNat_eq (by omega)
    rw [if_neg (by omega), if_neg (by omega), if_neg (by omega), if_pos (by omega), hfirst, hsecond, hthird]
  | @four b b₁ b₂ b₃ x y z w hb hb₁ hb₂ hb₃ hx hy hz hw hlow hhigh =>
    generalize hc : ((x * 64 + y) * 64 + z) * 64 + w = c
    have hfirst : UInt8.ofNat (0xF0 + c / 262144) = b := ofNat_eq (by omega)
    have hsecond : UInt8.ofNat (0x80 + c / 4096 % 64) = b₁ := ofNat_eq (by omega)
    have hthird : UInt8.ofNat (0x80 + c / 64 % 64) = b₂ := ofNat_eq (by omega)
    have hfourth : UInt8.ofNat (0x80 + c % 64) = b₃ := ofNat_eq (by omega)
    rw [if_neg (by omega), if_neg (by omega), if_neg (by omega), if_neg (by omega), if_pos (by omega),
      hfirst, hsecond, hthird, hfourth]

/-- A character of ASCII is one byte, and no other has a byte of ASCII. -/
theorem Encodes.ascii_or {c : Nat} {bytes : Bytes} (h : Encodes c bytes) :
    c < 0x80 ∧ bytes = [UInt8.ofNat c] ∨ 0x80 ≤ c ∧ ∀ b ∈ bytes, 0x80 ≤ b.toNat := by
  cases h with
  | one hb =>
    rw [UInt8.ofNat_toNat]
    exact .inl ⟨hb, rfl⟩
  | two hb hb₁ =>
    refine .inr ⟨by omega, ?_⟩
    simp only [List.forall_mem_cons, List.not_mem_nil, false_implies, implies_true, and_true]
    omega
  | three hb hb₁ hb₂ =>
    refine .inr ⟨by omega, ?_⟩
    simp only [List.forall_mem_cons, List.not_mem_nil, false_implies, implies_true, and_true]
    omega
  | four hb hb₁ hb₂ hb₃ =>
    refine .inr ⟨by omega, ?_⟩
    simp only [List.forall_mem_cons, List.not_mem_nil, false_implies, implies_true, and_true]
    omega

theorem encodePoint?_eq_some_iff {c : Nat} {bytes : Bytes} :
    encodePoint? c = some bytes ↔ Encodes c bytes :=
  ⟨encodes_of_encodePoint?, encodePoint?_of_encodes⟩

/-- A leading byte stands alone or announces one, two or three bytes. -/
theorem lead?_cases {n : Nat} {l : Lead} (h : lead? n = some l) :
    n < 0x80 ∨ (∃ x, n = 0xC0 + x ∧ 2 ≤ x ∧ x < 32) ∨ (∃ x, n = 0xE0 + x ∧ x < 16) ∨
      ∃ x, n = 0xF0 + x ∧ x < 5 := by
  have hrange : n < 0x80 ∨ 0xC2 ≤ n ∧ n < 0xF5 := by
    by_contra hout
    unfold lead? at h
    split_ifs at h <;> omega
  by_cases h₁ : n < 0x80
  · exact .inl h₁
  by_cases h₂ : n < 0xE0
  · exact .inr (.inl ⟨n - 0xC0, by omega⟩)
  by_cases h₃ : n < 0xF0
  · exact .inr (.inr (.inl ⟨n - 0xE0, by omega⟩))
  · exact .inr (.inr (.inr ⟨n - 0xF0, by omega⟩))

section Pieces

variable {b : UInt8} {x : Nat} (rest : Bytes)

theorem piece_one (h : b.toNat < 0x80) : piece b rest = (.point b.toNat, 0) := by
  rw [piece, lead?, if_pos (by omega)]
  rfl

theorem piece_two (h : b.toNat = 0xC0 + x) (hx : 2 ≤ x) (hx' : x < 32) :
    piece b rest = follow 0 1 0x80 0xBF x rest := by
  have hlead : lead? (0xC0 + x) = some ⟨x, 1, 0x80, 0xBF⟩ := by interval_cases x <;> rfl
  rw [piece, h, hlead]

theorem piece_three (h : b.toNat = 0xE0 + x) (hx : x < 16) : piece b rest =
    follow 0 2 (if x = 0 then 0xA0 else 0x80) (if x = 13 then 0x9F else 0xBF) x rest := by
  have hlead : lead? (0xE0 + x) =
      some ⟨x, 2, if x = 0 then 0xA0 else 0x80, if x = 13 then 0x9F else 0xBF⟩ := by
    interval_cases x <;> rfl
  rw [piece, h, hlead]

theorem piece_four (h : b.toNat = 0xF0 + x) (hx : x < 5) : piece b rest =
    follow 0 3 (if x = 0 then 0x90 else 0x80) (if x = 4 then 0x8F else 0xBF) x rest := by
  have hlead : lead? (0xF0 + x) =
      some ⟨x, 3, if x = 0 then 0x90 else 0x80, if x = 4 then 0x8F else 0xBF⟩ := by
    interval_cases x <;> rfl
  rw [piece, h, hlead]

end Pieces

theorem follow_cons {taken owed low high bits y : Nat} {b : UInt8} (rest : Bytes)
    (hb : b.toNat = 0x80 + y) (hy : y < 64) (hlow : low ≤ 0x80 + y) (hhigh : 0x80 + y ≤ high) :
    follow taken (owed + 1) low high bits (b :: rest) =
      follow (taken + 1) owed 0x80 0xBF (bits * 64 + y) rest := by
  rw [follow, if_pos (by omega), hb]
  congr 1
  omega

theorem follow_eq_point {taken owed low high bits taken' : Nat} {bytes : Bytes} {c : CodePoint}
    (h : follow taken (owed + 1) low high bits bytes = (.point c, taken')) (hlow : 0x80 ≤ low)
    (hhigh : high ≤ 0xBF) :
    ∃ (b : UInt8) (rest : Bytes) (y : Nat), bytes = b :: rest ∧ b.toNat = 0x80 + y ∧ y < 64 ∧
      low ≤ 0x80 + y ∧ 0x80 + y ≤ high ∧
      follow (taken + 1) owed 0x80 0xBF (bits * 64 + y) rest = (.point c, taken') := by
  cases bytes with
  | nil => cases h
  | cons b rest =>
    rw [follow] at h
    split at h
    · refine ⟨b, rest, b.toNat - 0x80, rfl, by omega, by omega, by omega, by omega, ?_⟩
      rwa [show b.toNat - 0x80 = b.toNat % 64 by omega]
    · cases h

/-- The bytes of a character are read as it, whatever follows them. -/
theorem piece_of_encodes {c : Nat} {b : UInt8} {tail : Bytes} (h : Encodes c (b :: tail)) (rest : Bytes) :
    piece b (tail ++ rest) = (.point c, tail.length) := by
  cases h with
  | one hb => exact piece_one rest hb
  | two hb hb₁ hx hx' hy =>
    rw [piece_two _ hb hx hx']
    exact follow_cons rest hb₁ hy (by omega) (by omega)
  | three hb hb₁ hb₂ hx hy hz hlow hhigh =>
    rw [piece_three _ hb hx]
    refine (follow_cons _ hb₁ hy ?_ ?_).trans (follow_cons rest hb₂ hz (by omega) (by omega))
    · split <;> omega
    · split <;> omega
  | four hb hb₁ hb₂ hb₃ hx hy hz hw hlow hhigh =>
    rw [piece_four _ hb hx]
    refine (follow_cons _ hb₁ hy ?_ ?_).trans ((follow_cons _ hb₂ hz (by omega) (by omega)).trans
      (follow_cons rest hb₃ hw (by omega) (by omega)))
    · split <;> omega
    · split <;> omega

/-- What is read as a character are its bytes. -/
theorem encodes_of_piece {b : UInt8} {rest : Bytes} {c : CodePoint} {taken : Nat}
    (h : piece b rest = (.point c, taken)) : Encodes c (b :: rest.take taken) := by
  obtain ⟨l, hlead⟩ : ∃ l, lead? b.toNat = some l := by
    rw [piece] at h
    cases hlead : lead? b.toNat with
    | none =>
      rw [hlead] at h
      cases h
    | some l => exact ⟨l, rfl⟩
  obtain hb | ⟨x, hb, hx, hx'⟩ | ⟨x, hb, hx⟩ | ⟨x, hb, hx⟩ := lead?_cases hlead
  · rw [piece_one _ hb] at h
    cases h
    exact .one hb
  · rw [piece_two _ hb hx hx'] at h
    obtain ⟨b₁, rest, y, rfl, hb₁, hy, -, -, h⟩ := follow_eq_point h (by omega) (by omega)
    cases h
    exact .two hb hb₁ hx hx' hy
  · rw [piece_three _ hb hx] at h
    obtain ⟨b₁, rest, y, rfl, hb₁, hy, hlow, hhigh, h⟩ :=
      follow_eq_point h (by split <;> omega) (by split <;> omega)
    obtain ⟨b₂, rest, z, rfl, hb₂, hz, -, -, h⟩ := follow_eq_point h (by omega) (by omega)
    cases h
    refine .three hb hb₁ hb₂ hx hy hz ?_ ?_
    · split at hlow <;> omega
    · split at hhigh <;> omega
  · rw [piece_four _ hb hx] at h
    obtain ⟨b₁, rest, y, rfl, hb₁, hy, hlow, hhigh, h⟩ :=
      follow_eq_point h (by split <;> omega) (by split <;> omega)
    obtain ⟨b₂, rest, z, rfl, hb₂, hz, -, -, h⟩ := follow_eq_point h (by omega) (by omega)
    obtain ⟨b₃, rest, w, rfl, hb₃, hw, -, -, h⟩ := follow_eq_point h (by omega) (by omega)
    cases h
    refine .four hb hb₁ hb₂ hb₃ hx hy hz hw ?_ ?_
    · split at hlow <;> omega
    · split at hhigh <;> omega

theorem encode?_nil_eq_some_iff {bytes : Bytes} : encode? [] = some bytes ↔ bytes = [] := by
  rw [encode?, List.mapM_nil]
  exact Option.some_inj.trans eq_comm

theorem encode?_cons_eq_some_iff {c : CodePoint} {t : Text} {bytes : Bytes} :
    encode? (c :: t) = some bytes ↔
      ∃ first rest, Encodes c first ∧ encode? t = some rest ∧ bytes = first ++ rest := by
  simp only [← encodePoint?_eq_some_iff, encode?, List.mapM_cons]
  cases encodePoint? c with
  | none => simp
  | some first =>
    cases t.mapM encodePoint? with
    | none => simp
    | some parts => simp [eq_comm]

theorem encode?_append {t u : Text} {bytes bytes' : Bytes} (h : encode? t = some bytes)
    (h' : encode? u = some bytes') : encode? (t ++ u) = some (bytes ++ bytes') := by
  induction t generalizing bytes with
  | nil =>
    obtain rfl := encode?_nil_eq_some_iff.mp h
    exact h'
  | cons c t ih =>
    obtain ⟨first, rest, hfirst, hrest, rfl⟩ := encode?_cons_eq_some_iff.mp h
    rw [List.cons_append, encode?_cons_eq_some_iff]
    exact ⟨first, rest ++ bytes', hfirst, ih hrest, List.append_assoc _ _ _⟩

theorem encode?_append_eq_some {t u : Text} {bytes : Bytes} (h : encode? (t ++ u) = some bytes) :
    ∃ first rest, encode? t = some first ∧ encode? u = some rest ∧ bytes = first ++ rest := by
  induction t generalizing bytes with
  | nil => exact ⟨[], bytes, rfl, h, rfl⟩
  | cons c t ih =>
    obtain ⟨head, bytes, hhead, hbytes, rfl⟩ := encode?_cons_eq_some_iff.mp h
    obtain ⟨first, rest, hfirst, hrest, rfl⟩ := ih hbytes
    refine ⟨head ++ first, rest, ?_, hrest, (List.append_assoc _ _ _).symm⟩
    exact encode?_cons_eq_some_iff.mpr ⟨head, first, hhead, hfirst, rfl⟩

theorem encode?_singleton {c : CodePoint} {bytes : Bytes} (h : encode? [c] = some bytes) :
    Encodes c bytes := by
  obtain ⟨first, rest, hfirst, hrest, rfl⟩ := encode?_cons_eq_some_iff.mp h
  obtain rfl := encode?_nil_eq_some_iff.mp hrest
  rwa [List.append_nil]

theorem Encodes.ne_nil {c : Nat} {bytes : Bytes} (h : Encodes c bytes) : bytes ≠ [] := by
  cases h <;> exact List.cons_ne_nil _ _

/-- Bytes that are a text are read as it before what follows them. -/
theorem decodeFrom_append {t : Text} {bytes : Bytes} (h : encode? t = some bytes) (position : Nat)
    (rest : Bytes) : decodeFrom position (bytes ++ rest) =
      (decodeFrom (position + bytes.length) rest).map (t ++ ·) := by
  induction t generalizing position bytes with
  | nil =>
    obtain rfl := encode?_nil_eq_some_iff.mp h
    rw [List.nil_append, List.length_nil, Nat.add_zero]
    cases decodeFrom position rest <;> rfl
  | cons c t ih =>
    obtain ⟨first, bytes, hfirst, hbytes, rfl⟩ := encode?_cons_eq_some_iff.mp h
    cases first with
    | nil => exact absurd rfl hfirst.ne_nil
    | cons b tail =>
      have hlength : position + tail.length + 1 + bytes.length =
          position + (b :: (tail ++ bytes)).length := by
        rw [List.length_cons, List.length_append]
        omega
      rw [List.cons_append, List.cons_append, decodeFrom, List.append_assoc,
        piece_of_encodes hfirst (bytes ++ rest)]
      simp only [List.drop_left, ih hbytes, hlength]
      cases decodeFrom (position + (b :: (tail ++ bytes)).length) rest <;> rfl

theorem encode?_of_decodeFrom {position : Nat} {bytes : Bytes} {t : Text}
    (h : decodeFrom position bytes = .ok t) : encode? t = some bytes := by
  fun_induction decodeFrom position bytes generalizing t with
  | case1 position =>
    obtain rfl := Except.ok.inj h
    rfl
  | case2 => cases h
  | case3 position b rest c taken hpiece ih =>
    obtain ⟨t, ht, h⟩ := bind_eq_ok.mp h
    obtain rfl := pure_eq_ok.mp h
    refine encode?_cons_eq_some_iff.mpr ⟨_, _, encodes_of_piece hpiece, ih ht, ?_⟩
    rw [List.cons_append, List.take_append_drop]

/-- Strict decoding takes back what encoding makes, and nothing else. -/
theorem decode_eq_ok_iff {bytes : Bytes} {t : Text} : decode bytes = .ok t ↔ encode? t = some bytes := by
  refine ⟨encode?_of_decodeFrom, fun h ↦ ?_⟩
  have happend := decodeFrom_append h 0 []
  rw [List.append_nil, decodeFrom] at happend
  rw [decode, happend]
  exact congrArg Except.ok (List.append_nil t)

/-- A text that the bytes are up to some place is a beginning of the whole text. -/
theorem prefix_of_decode {bytes rest : Bytes} {t before : Text} (ht : decode (bytes ++ rest) = .ok t)
    (hbefore : decode bytes = .ok before) : before <+: t := by
  rw [decode, decodeFrom_append (decode_eq_ok_iff.mp hbefore)] at ht
  obtain ⟨after, -, rfl⟩ := map_eq_ok.mp ht
  exact List.prefix_append before after

/-- Bytes without a defect lose nothing when defects are replaced. -/
theorem decodeReplacing_of_encode? {t : Text} {bytes : Bytes} (h : encode? t = some bytes) :
    decodeReplacing bytes = t := by
  rw [decodeReplacing]
  induction t generalizing bytes with
  | nil =>
    obtain rfl := encode?_nil_eq_some_iff.mp h
    rw [pieces]
    rfl
  | cons c t ih =>
    obtain ⟨first, bytes, hfirst, hbytes, rfl⟩ := encode?_cons_eq_some_iff.mp h
    cases first with
    | nil => exact absurd rfl hfirst.ne_nil
    | cons b tail =>
      rw [List.cons_append, pieces, piece_of_encodes hfirst bytes, List.drop_left, List.map_cons,
        ih hbytes]

end MessageExtraction.Utf8
