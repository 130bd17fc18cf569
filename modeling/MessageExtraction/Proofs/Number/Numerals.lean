import MessageExtraction.Number.Written
import MessageExtraction.Proofs.Number.Decimal
import MessageExtraction.Proofs.Number.Shortest

/-!
Doubles as numerals. A finite double is written as a sign and a numeral that shows a fraction or an
exponent, and the numeral is read as a decimal that is rounded to the double.
-/

namespace MessageExtraction

namespace Text

theorem positional?_cons_zero {base : Nat} {value? : CodePoint → Option Nat}
    (hzero : value? 0x30 = some 0) (t : Text) :
    positional? base value? (0x30 :: t) = positional? base value? t := by
  simp [positional?, hzero]

theorem positional?_zeros_append {base : Nat} {value? : CodePoint → Option Nat}
    (hzero : value? 0x30 = some 0) (k : Nat) (t : Text) :
    positional? base value? (List.replicate k 0x30 ++ t) = positional? base value? t := by
  induction k with
  | zero => rfl
  | succ k ih => rw [List.replicate_succ, List.cons_append, positional?_cons_zero hzero, ih]

theorem positional?_append_zeros {base : Nat} {value? : CodePoint → Option Nat}
    (hzero : value? 0x30 = some 0) (k : Nat) (t : Text) :
    positional? base value? (t ++ List.replicate k 0x30) =
      (positional? base value? t).map (· * base ^ k) := by
  induction k with
  | zero => simp
  | succ k ih =>
    rw [List.replicate_succ', ← List.append_assoc, positional?_concat, ih, hzero]
    cases positional? base value? t with
    | none => rfl
    | some n => simp [Nat.pow_succ, Nat.mul_assoc]

theorem head?_ofNat_ne_zero {n : Nat} (h : n ≠ 0) : (ofNat n).head? ≠ some 0x30 := by
  induction n using Nat.strongRecOn with
  | ind n ih =>
    by_cases hn : n < 10
    · rw [ofNat_of_lt hn, List.head?_cons]
      simpa using h
    · rw [ofNat_of_le (by omega), List.head?_append_of_ne_nil _ (ofNat_ne_nil _)]
      exact ih (n / 10) (by omega) (by omega)

end Text

namespace Number

open Text

/-- Digits, at least one. -/
def IsDigits (t : Text) : Prop := t ≠ [] ∧ ∀ c ∈ t, CodePoint.isDigit c = true

theorem isDigit_of_mem_ofNat {n : Nat} : ∀ c ∈ ofNat n, CodePoint.isDigit c = true :=
  forall_mem_ofNat (by decide) n

theorem isDigits_ofNat (n : Nat) : IsDigits (ofNat n) := ⟨ofNat_ne_nil n, isDigit_of_mem_ofNat⟩

theorem isDigits_append {t u : Text} (ht : ∀ c ∈ t, CodePoint.isDigit c = true) (hu : IsDigits u) :
    IsDigits (t ++ u) :=
  ⟨List.append_ne_nil_of_right_ne_nil _ hu.1, List.forall_mem_append.mpr ⟨ht, hu.2⟩⟩

theorem isDigit_of_mem_zeros {k : Nat} : ∀ c ∈ List.replicate k 0x30, CodePoint.isDigit c = true := by
  intro c hc
  rw [List.eq_of_mem_replicate hc]
  decide

/-- What stands after digits that are read as far as they go. -/
def EndsDigits (t : Text) : Prop := ∀ c ∈ t.head?, CodePoint.isDigit c = false

/-- A numeral in its three parts: the digits before the point, without a zero before others, then
perhaps a fraction and perhaps an exponent. -/
structure Numeral where
  whole : Text
  fraction : Text
  power : Text
  isDigits_whole : IsDigits whole
  whole_eq_or : whole = [0x30] ∨ whole.head? ≠ some 0x30
  fraction_eq : fraction = [] ∨ ∃ ds, fraction = CodePoint.period :: ds ∧ IsDigits ds
  power_eq : power = [] ∨ ∃ sign ds, power = 0x65 :: (sign ++ ds) ∧
    (sign = [] ∨ sign = [CodePoint.plus] ∨ sign = [CodePoint.hyphen]) ∧ IsDigits ds

namespace Numeral

def text (n : Numeral) : Text := n.whole ++ n.fraction ++ n.power

/-- Whether a numeral shows that it is a double. -/
def IsDouble (n : Numeral) : Prop := n.fraction ≠ [] ∨ n.power ≠ []

def ofNat (k : Nat) : Numeral where
  whole := Text.ofNat k
  fraction := []
  power := []
  isDigits_whole := isDigits_ofNat k
  whole_eq_or := by
    by_cases h : k = 0
    · rw [h]
      exact .inl rfl
    · exact .inr (head?_ofNat_ne_zero h)
  fraction_eq := .inl rfl
  power_eq := .inl rfl

theorem text_ofNat (k : Nat) : (ofNat k).text = Text.ofNat k := by simp [ofNat, text]

theorem endsDigits_power_append (n : Numeral) {rest : Text} (hrest : EndsDigits rest) :
    EndsDigits (n.power ++ rest) := by
  obtain h | ⟨sign, ds, h, -⟩ := n.power_eq
  · rw [h]
    exact hrest
  · rw [h]
    rintro c ⟨⟩
    decide

theorem endsDigits_fraction_append (n : Numeral) {rest : Text} (hrest : EndsDigits rest) :
    EndsDigits (n.fraction ++ (n.power ++ rest)) := by
  obtain h | ⟨ds, h, -⟩ := n.fraction_eq
  · rw [h]
    exact n.endsDigits_power_append hrest
  · rw [h]
    rintro c ⟨⟩
    decide

end Numeral

theorem takeWhile_digits {ds rest : Text} (hds : ∀ c ∈ ds, CodePoint.isDigit c = true)
    (hrest : EndsDigits rest) : (ds ++ rest).takeWhile CodePoint.isDigit = ds := by
  rw [List.takeWhile_append_of_pos hds]
  cases rest with
  | nil => simp
  | cons c rest => simp [hrest c rfl]

theorem dropWhile_digits {ds rest : Text} (hds : ∀ c ∈ ds, CodePoint.isDigit c = true)
    (hrest : EndsDigits rest) : (ds ++ rest).dropWhile CodePoint.isDigit = rest := by
  rw [List.dropWhile_append_of_pos hds]
  cases rest with
  | nil => rfl
  | cons c rest => simp [hrest c rfl]

/-- A numeral is read as its digits, with the point taken into the exponent. -/
theorem fraction?_text (n : Numeral) : fraction? n.text = do
    let k ← digits? 10 (n.whole ++ n.fraction.tail)
    let e ← exponent? n.power
    return ⟨k, e - n.fraction.tail.length⟩ := by
  have hnil : EndsDigits [] := fun c hc ↦ by cases hc
  have hfraction : EndsDigits (n.fraction ++ n.power) := by
    simpa using n.endsDigits_fraction_append hnil
  have hpower : EndsDigits n.power := by simpa using n.endsDigits_power_append hnil
  rw [Numeral.text, List.append_assoc, fraction?, takeWhile_digits n.isDigits_whole.2 hfraction]
  simp only [List.drop_left]
  obtain h | ⟨ds, h, hds⟩ := n.fraction_eq
  · rw [h, List.nil_append]
    obtain hp | ⟨sign, ds, hp, -⟩ := n.power_eq
    · rw [hp]
      rfl
    · rw [hp]
      rfl
  · rw [h, List.cons_append]
    simp only [takeWhile_digits hds.2 hpower, dropWhile_digits hds.2 hpower]
    rfl

theorem digits?_eq {t : Text} (h : t ≠ []) : digits? 10 t = positional? 10 (digitIn? 10) t := by
  rw [digits?, if_neg (by simpa using h)]

theorem digitIn?_zero : digitIn? 10 0x30 = some 0 := by decide

theorem digits?_zeros_append (k n : Nat) :
    digits? 10 (List.replicate k 0x30 ++ ofNat n) = some n := by
  rw [digits?_eq (isDigits_append isDigit_of_mem_zeros (isDigits_ofNat n)).1,
    positional?_zeros_append digitIn?_zero, ← digits?_eq (ofNat_ne_nil n), digits?_ofNat]

theorem digits?_append_zeros (k n : Nat) :
    digits? 10 (ofNat n ++ List.replicate k 0x30) = some (n * 10 ^ k) := by
  rw [digits?_eq (List.append_ne_nil_of_left_ne_nil (ofNat_ne_nil n) _),
    positional?_append_zeros digitIn?_zero, ← digits?_eq (ofNat_ne_nil n), digits?_ofNat]
  rfl

theorem isDigits_zero : IsDigits [0x30] := isDigits_ofNat 0

theorem fraction?_eq {n : Numeral} {k : Nat} {e : Int}
    (hk : digits? 10 (n.whole ++ n.fraction.tail) = some k) (he : exponent? n.power = some e) :
    fraction? n.text = some ⟨k, e - n.fraction.tail.length⟩ := by
  rw [fraction?_text, hk, he]
  rfl

/-- A text is a numeral of a double and is read as the given number. -/
def Spells (t : Text) (v : ℚ) : Prop :=
  ∃ n : Numeral, t = n.text ∧ n.IsDouble ∧ ∃ d, fraction? n.text = some d ∧ d.value = v

variable {f : Format} {d : Decimal}

theorem value_eq_of_exponent_eq {e : Int} (h : e = d.exponent) :
    (⟨d.digits, e⟩ : Decimal).value = d.value := by
  rw [h]

/-- A number below one, with zeros after its point. -/
theorem spells_below_one {top : Int} (htop : top = d.exponent + (ofNat d.digits).length - 1)
    (hneg : top < 0) : Spells (positional f (ofNat d.digits) top) d.value := by
  refine ⟨⟨[0x30], CodePoint.period :: (List.replicate (top.natAbs - 1) 0x30 ++ ofNat d.digits), [],
    isDigits_zero, .inl rfl, .inr ⟨_, rfl, isDigits_append isDigit_of_mem_zeros (isDigits_ofNat _)⟩,
    .inl rfl⟩, ?_, .inl (List.cons_ne_nil _ _), _, fraction?_eq (k := d.digits) (e := 0) ?_ rfl, ?_⟩
  · rw [positional, if_pos hneg, Numeral.text, List.append_nil]
    rfl
  · exact digits?_zeros_append (top.natAbs - 1 + 1) d.digits
  · rw [List.tail_cons, List.length_append, List.length_replicate]
    exact value_eq_of_exponent_eq (by omega)

/-- A whole number, with zeros up to its point. -/
theorem spells_whole (hf : f.keepsFraction = true) {top : Int} (hd : d.digits ≠ 0)
    (htop : top = d.exponent + (ofNat d.digits).length - 1) (hnonneg : 0 ≤ top)
    (hlength : (ofNat d.digits).length ≤ top.toNat + 1) :
    Spells (positional f (ofNat d.digits) top) d.value := by
  set zeros : Text := List.replicate (top.toNat + 1 - (ofNat d.digits).length) 0x30
  refine ⟨⟨ofNat d.digits ++ zeros, [CodePoint.period, 0x30], [], ?_, ?_,
    .inr ⟨_, rfl, isDigits_zero⟩, .inl rfl⟩, ?_, .inl (List.cons_ne_nil _ _), _,
    fraction?_eq (k := d.digits * 10 ^ (top.toNat + 1 - (ofNat d.digits).length + 1)) (e := 0) ?_ rfl, ?_⟩
  · exact ⟨List.append_ne_nil_of_left_ne_nil (ofNat_ne_nil _) _,
      List.forall_mem_append.mpr ⟨isDigit_of_mem_ofNat, isDigit_of_mem_zeros⟩⟩
  · rw [List.head?_append_of_ne_nil _ (ofNat_ne_nil _)]
    exact .inr (head?_ofNat_ne_zero hd)
  · rw [positional, if_neg (not_lt.mpr hnonneg)]
    simp only
    rw [if_pos hlength, hf, if_pos rfl, Numeral.text, List.append_nil]
    rfl
  · rw [List.tail_cons, List.append_assoc, ← digits?_append_zeros, List.replicate_succ']
  · have hexponent : d.exponent = (top.toNat + 1 - (ofNat d.digits).length : Nat) := by omega
    rw [List.tail_cons, List.length_singleton, Decimal.value, Decimal.value, hexponent, zpow_natCast]
    push_cast
    rw [pow_succ, zpow_neg_one]
    field_simp

/-- A number with its point among its digits. -/
theorem spells_broken {top : Int} (hd : d.digits ≠ 0)
    (htop : top = d.exponent + (ofNat d.digits).length - 1) (hnonneg : 0 ≤ top)
    (hlength : top.toNat + 1 < (ofNat d.digits).length) :
    Spells (positional f (ofNat d.digits) top) d.value := by
  have hmem {c : CodePoint} (hc : c ∈ ofNat d.digits) := isDigit_of_mem_ofNat c hc
  refine ⟨⟨(ofNat d.digits).take (top.toNat + 1),
    CodePoint.period :: (ofNat d.digits).drop (top.toNat + 1), [], ?_, ?_, .inr ⟨_, rfl, ?_⟩,
    .inl rfl⟩, ?_, .inl (List.cons_ne_nil _ _), _, fraction?_eq (k := d.digits) (e := 0) ?_ rfl, ?_⟩
  · exact ⟨by simp [ofNat_ne_nil], fun c hc ↦ hmem (List.mem_of_mem_take hc)⟩
  · rw [List.head?_take, if_neg (by omega)]
    exact .inr (head?_ofNat_ne_zero hd)
  · exact ⟨by simpa using hlength, fun c hc ↦ hmem (List.mem_of_mem_drop hc)⟩
  · rw [positional, if_neg (not_lt.mpr hnonneg)]
    simp only
    rw [if_neg (not_le.mpr hlength), Numeral.text, List.append_nil]
  · rw [List.tail_cons, List.take_append_drop, digits?_ofNat]
  · rw [List.tail_cons, List.length_drop]
    exact value_eq_of_exponent_eq (by omega)

theorem exponent?_signed (negative : Bool) {ds : Text} {k : Nat} (h : digits? 10 ds = some k) :
    exponent? (0x65 :: (if negative then CodePoint.hyphen else CodePoint.plus) :: ds) =
      some (withSign negative k) := by
  cases negative <;> simp [exponent?, takeSign, h]

/-- A number with one digit before its point and an exponent. -/
theorem spells_exponential {top : Int} (hd : d.digits ≠ 0)
    (htop : top = d.exponent + (ofNat d.digits).length - 1) :
    Spells (exponential f (ofNat d.digits) top) d.value := by
  have hmem {c : CodePoint} (hc : c ∈ ofNat d.digits) := isDigit_of_mem_ofNat c hc
  have hlength := List.length_pos_iff.mpr (ofNat_ne_nil d.digits)
  set ds := (ofNat d.digits).drop 1
  set power : Text := padLeft f.exponentWidth 0x30 (ofNat top.natAbs)
  set sign : CodePoint := if decide (top < 0) then CodePoint.hyphen else CodePoint.plus
  set fraction : Text := if ds.isEmpty then [] else CodePoint.period :: ds with hfraction
  have htail : fraction.tail = ds := by
    rw [hfraction]
    split
    · rename_i hempty
      exact (List.isEmpty_iff.mp hempty).symm
    · rfl
  have hwhole : IsDigits ((ofNat d.digits).take 1) :=
    ⟨by simp [ofNat_ne_nil], fun c hc ↦ hmem (List.mem_of_mem_take hc)⟩
  have hhead : ((ofNat d.digits).take 1).head? ≠ some 0x30 := by
    rw [List.head?_take, if_neg (by omega)]
    exact head?_ofNat_ne_zero hd
  have hpoint : fraction = [] ∨ ∃ ds, fraction = CodePoint.period :: ds ∧ IsDigits ds := by
    rw [hfraction]
    split
    · exact .inl rfl
    · rename_i hne
      exact .inr ⟨ds, rfl, by simpa using hne, fun c hc ↦ hmem (List.mem_of_mem_drop hc)⟩
  have hpower : IsDigits power := isDigits_append isDigit_of_mem_zeros (isDigits_ofNat _)
  have hsign : [sign] = [] ∨ [sign] = [CodePoint.plus] ∨ [sign] = [CodePoint.hyphen] := by
    unfold sign
    split <;> simp
  have hdigits : digits? 10 ((ofNat d.digits).take 1 ++ fraction.tail) = some d.digits := by
    rw [htail, List.take_append_drop, digits?_ofNat]
  have hexponent : exponent? (0x65 :: sign :: power) = some top := by
    refine (exponent?_signed (decide (top < 0)) (digits?_zeros_append _ _)).trans ?_
    by_cases hneg : top < 0
    · rw [decide_eq_true hneg, withSign, if_pos rfl]
      congr 1
      omega
    · rw [decide_eq_false hneg, withSign, if_neg Bool.false_ne_true]
      congr 1
      omega
  let n : Numeral := ⟨(ofNat d.digits).take 1, fraction, 0x65 :: sign :: power, hwhole, .inr hhead,
    hpoint, .inr ⟨[sign], power, rfl, hsign, hpower⟩⟩
  refine ⟨n, ?_, .inr (List.cons_ne_nil _ _), _, @fraction?_eq n _ _ hdigits hexponent, ?_⟩
  · have htext : n.text = (ofNat d.digits).take 1 ++ fraction ++ 0x65 :: sign :: power := rfl
    rw [htext, exponential]
    unfold sign
    by_cases hneg : top < 0
    · rw [if_pos hneg, decide_eq_true hneg, List.append_assoc _ (Text.ofString _)]
      rfl
    · rw [if_neg hneg, decide_eq_false hneg, List.append_assoc _ (Text.ofString _)]
      rfl
  · have hfractionLength : n.fraction.tail.length = (ofNat d.digits).length - 1 := by
      rw [show n.fraction.tail = ds from htail, List.length_drop]
    exact value_eq_of_exponent_eq (by omega)

theorem spells_decimal (hf : f.keepsFraction = true) {top : Int} (hd : d.digits ≠ 0)
    (htop : top = d.exponent + (ofNat d.digits).length - 1) :
    Spells (if f.positionalFrom ≤ top ∧ top < f.positionalBelow then
      positional f (ofNat d.digits) top else exponential f (ofNat d.digits) top) d.value := by
  split
  · by_cases hneg : top < 0
    · exact spells_below_one htop hneg
    by_cases hlength : (ofNat d.digits).length ≤ top.toNat + 1
    · exact spells_whole hf hd htop (not_lt.mp hneg) hlength
    · exact spells_broken hd htop (not_lt.mp hneg) (not_le.mp hlength)
  · exact spells_exponential hd htop

theorem fraction?_zero : ∃ n : Numeral, ([0x30, CodePoint.period, 0x30] : Text) = n.text ∧
    n.IsDouble ∧ fraction? n.text = some ⟨0, -1⟩ :=
  ⟨⟨[0x30], [CodePoint.period, 0x30], [], isDigits_zero, .inl rfl, .inr ⟨_, rfl, isDigits_zero⟩,
    .inl rfl⟩, rfl, .inl (List.cons_ne_nil _ _), rfl⟩

theorem digits_shortest_ne_zero {m : Nat} {e : Int} (hm : Binary.IsStored m e) (hm0 : m ≠ 0) :
    (Decimal.shortest m e).digits ≠ 0 := by
  intro hzero
  have hle := Decimal.two_pow_le_of_roundsTo hm hm0 (Decimal.roundsTo_shortest hm hm0)
  rw [Decimal.value, hzero, Nat.cast_zero, zero_mul] at hle
  exact absurd hle (not_le.mpr (by positivity))

/-- A finite double is written as its sign and a numeral that is read as the double. -/
theorem written_finite (hf : f.keepsFraction = true) {x : Float} {negative : Bool} {m : Nat} {e : Int}
    (h : Binary.ofFloat x = .finite negative m e) : ∃ n : Numeral,
      written f x = (if negative then [CodePoint.hyphen] else []) ++ n.text ∧ n.IsDouble ∧
        ∃ d, fraction? n.text = some d ∧ Binary.signed negative d.toFloat = x := by
  have hm := Binary.isStored_of_finite h
  have hx := Binary.signed_magnitude h
  by_cases hm0 : m = 0
  · subst hm0
    obtain rfl : e = -1074 := hm.normal.resolve_left (by decide)
    obtain ⟨n, ht, hdouble, hread⟩ := fraction?_zero
    refine ⟨n, ?_, hdouble, _, hread, ?_⟩
    · have hzero : positional f [0x30] 0 = [0x30, CodePoint.period, 0x30] := by
        rw [positional, hf]
        rfl
      rw [written, h, ← ht, ← hzero]
      rfl
    · rw [← hx, Binary.magnitude_zero]
      rfl
  · obtain ⟨n, ht, hdouble, d, hread, hvalue⟩ :=
      spells_decimal hf (digits_shortest_ne_zero hm hm0) rfl
    refine ⟨n, ?_, hdouble, d, hread, ?_⟩
    · obtain ⟨k, rfl⟩ := Nat.exists_eq_succ_of_ne_zero hm0
      rw [written, h, ← ht]
      rfl
    · rw [Decimal.toFloat_eq hm hm0 (hvalue ▸ Decimal.roundsTo_shortest hm hm0), hx]

end Number

end MessageExtraction
