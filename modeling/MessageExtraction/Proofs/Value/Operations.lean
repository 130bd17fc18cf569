import MessageExtraction.Proofs.Folding.Rules
import MessageExtraction.Proofs.Json.Scalars

/-!
Which operations on values break instead of giving a value, and which give one that is no value of a
script.
-/

namespace MessageExtraction

namespace Value

/-- The values of a script: what is built of nothing at all, truth values, numbers and texts. -/
inductive IsPlain : Value → Prop
  | null : IsPlain .null
  | undefined : IsPlain .undefined
  | bool (b : Bool) : IsPlain (.bool b)
  | int (n : Int) : IsPlain (.int n)
  | float (x : Float) : IsPlain (.float x)
  | nan : IsPlain .nan
  | text (t : Text) : IsPlain (.text t)
  | list {items : List Value} : (∀ v ∈ items, IsPlain v) → IsPlain (.list items)
  | object {members : List (Text × Value)} : (∀ m ∈ members, IsPlain m.2) → IsPlain (.object members)

theorem IsPlain.ofLiteral (n : Number.Literal) : (ofLiteral n).IsPlain := by
  cases n with
  | int n => exact .int n
  | float x => exact .float x

theorem IsPlain.normalize_float (x : Float) : (normalize (.float x)).IsPlain := by
  rw [normalize]
  split
  · exact .int _
  · exact .float x

theorem IsPlain.insertMember {name : Text} {v : Value} {members : List (Text × Value)} (hv : v.IsPlain)
    (h : ∀ m ∈ members, m.2.IsPlain) : ∀ m ∈ insertMember name v members, m.2.IsPlain := by
  induction members with
  | nil => simpa [Value.insertMember] using hv
  | cons m members ih =>
    obtain ⟨hm, hmembers⟩ := List.forall_mem_cons.mp h
    rw [Value.insertMember]
    split
    · exact List.forall_mem_cons.mpr ⟨hv, hmembers⟩
    · exact List.forall_mem_cons.mpr ⟨hm, ih hmembers⟩

/-- An integer that is too long to be written would be a part of the value's text. -/
inductive HasLongInteger : Value → Prop
  | int {n : Int} : ¬Json.IsWritable n → HasLongInteger (.int n)
  | item {items : List Value} {v : Value} : v ∈ items → HasLongInteger v → HasLongInteger (.list items)

theorem hasLongInteger_int {n : Int} : (int n).HasLongInteger ↔ ¬Json.IsWritable n := by
  constructor
  · intro h
    cases h
    assumption
  · exact .int

theorem hasLongInteger_list {items : List Value} :
    (list items).HasLongInteger ↔ ∃ v ∈ items, v.HasLongInteger := by
  constructor
  · intro h
    cases h with
    | item hv h => exact ⟨_, hv, h⟩
  · intro ⟨v, hv, h⟩
    exact .item hv h

theorem integerText_eq_error_iff {n : Int} {f : Fault} :
    integerText n = .error f ↔ f = .tooManyDigits none ∧ ¬Json.IsWritable n := by
  rw [integerText, Json.IsWritable, Nat.not_le]
  split
  · rename_i h
    simp [h, eq_comm]
  · rename_i h
    simp [h]

theorem itemTexts_cons_eq_error_iff {v : Value} {rest : List Value} {f : Fault} :
    itemTexts (v :: rest) = .error f ↔
      v.toText = .error f ∨ (∃ t, v.toText = .ok t) ∧ itemTexts rest = .error f := by
  cases v <;> simp [itemTexts, bind_eq_error, bind_eq_ok, toText, pure, Except.pure]

mutual

/-- Converting a value to a text breaks exactly on integers that are too long. -/
theorem toText_eq_error_iff {f : Fault} : (v : Value) →
    (v.toText = .error f ↔ f = .tooManyDigits none ∧ v.HasLongInteger)
  | .int n => by rw [toText, integerText_eq_error_iff, hasLongInteger_int]
  | .list items => by
    rw [toText, hasLongInteger_list, bind_eq_error, itemTexts_eq_error_iff items]
    simp [pure, Except.pure]
  | .null | .undefined | .bool _ | .float _ | .nan | .complex _ _ | .text _ | .object _ => by
    refine iff_of_false (by simp [toText]) ?_
    intro ⟨_, h⟩
    cases h

theorem itemTexts_eq_error_iff {f : Fault} : (items : List Value) →
    (itemTexts items = .error f ↔ f = .tooManyDigits none ∧ ∃ v ∈ items, v.HasLongInteger)
  | [] => by simp [itemTexts]
  | v :: rest => by
    have hrest := itemTexts_eq_error_iff (f := f) rest
    have hv := toText_eq_error_iff (f := f) v
    rw [itemTexts_cons_eq_error_iff, hv, hrest, List.exists_mem_cons_iff]
    constructor
    · rintro (⟨rfl, h⟩ | ⟨-, rfl, h⟩)
      · exact ⟨rfl, .inl h⟩
      · exact ⟨rfl, .inr h⟩
    · rintro ⟨rfl, h⟩
      by_cases hlong : v.HasLongInteger
      · exact .inl ⟨rfl, hlong⟩
      · refine .inr ⟨?_, rfl, h.resolve_left hlong⟩
        cases ht : v.toText with
        | ok t => exact ⟨t, rfl⟩
        | error g => exact absurd ((toText_eq_error_iff v).mp ht).2 hlong

end

/-- There is a double near the operand. -/
def Operand.HasDouble (a : Operand) : Prop := ∃ x, a.toFloat = .ok x

theorem toFloat_eq_error_iff {a : Operand} {f : Fault} :
    a.toFloat = .error f ↔ f = .tooLarge ∧ ¬a.HasDouble := by
  cases a with
  | float x => simp [Operand.toFloat, Operand.HasDouble]
  | int n =>
    simp only [Operand.toFloat, Operand.HasDouble]
    cases Binary.ofInt? n <;> simp [eq_comm]

/-- An operation on doubles breaks if an operand has none, or on the doubles. -/
theorem onDoubles_eq_error_iff {a b : Operand} {g : Float → Float → Except Fault Value} {f : Fault} :
    (do let x ← a.toFloat; let y ← b.toFloat; g x y) = .error f ↔
      f = .tooLarge ∧ (¬a.HasDouble ∨ ¬b.HasDouble) ∨
        ∃ x y, a.toFloat = .ok x ∧ b.toFloat = .ok y ∧ g x y = .error f := by
  cases ha : a.toFloat with
  | error e =>
    have he := toFloat_eq_error_iff.mp ha
    simp [error_bind, he, eq_comm]
  | ok x =>
    have hx : a.HasDouble := ⟨x, ha⟩
    cases hb : b.toFloat with
    | error e =>
      have he := toFloat_eq_error_iff.mp hb
      simp [ok_bind, error_bind, he, eq_comm]
    | ok y =>
      have hy : b.HasDouble := ⟨y, hb⟩
      simp [ok_bind, hx, hy]

/-- Both operands are integers. -/
def Operand.AreInts (a b : Operand) : Prop := ∃ m n, a = .int m ∧ b = .int n

theorem combine_eq_error_iff {exact : Int → Int → Int} {rounded : Float → Float → Float} {a b : Operand}
    {f : Fault} : combine exact rounded a b = .error f ↔
      ¬a.AreInts b ∧ f = .tooLarge ∧ (¬a.HasDouble ∨ ¬b.HasDouble) := by
  rw [combine.eq_def]
  split
  · rename_i m n
    refine iff_of_false (by simp) ?_
    intro ⟨h, _⟩
    exact h ⟨m, n, rfl, rfl⟩
  · rename_i h
    have hints : ¬a.AreInts b := fun ⟨m, n, ha, hb⟩ ↦ h m n ha hb
    rw [onDoubles_eq_error_iff]
    simp [hints, pure, Except.pure]

/-- A division breaks if the quotient of two integers is too large, or an operand has no double. -/
theorem div_eq_error_iff {a b : Operand} {f : Fault} :
    div a b = .error f ↔ f = .tooLarge ∧
      ((∃ m n, a = .int m ∧ b = .int n ∧ Binary.nearest? m.natAbs n.natAbs = none) ∨
        ¬a.AreInts b ∧ (¬a.HasDouble ∨ ¬b.HasDouble)) := by
  rw [div.eq_def]
  split
  · rename_i m n
    have hints : (Operand.int m).AreInts (.int n) := ⟨m, n, rfl, rfl⟩
    cases hnearest : Binary.nearest? m.natAbs n.natAbs with
    | none => simp [hints, hnearest, eq_comm]
    | some x => simp [hints, hnearest]
  · rename_i h
    have hints : ¬a.AreInts b := fun ⟨m, n, ha, hb⟩ ↦ h m n ha hb
    have hnot : ¬∃ m n, a = .int m ∧ b = .int n ∧ Binary.nearest? m.natAbs n.natAbs = none := by
      intro ⟨m, n, ha, hb, _⟩
      exact hints ⟨m, n, ha, hb⟩
    rw [onDoubles_eq_error_iff, or_iff_right hnot]
    simp [hints, pure, Except.pure]

/-- A remainder breaks if an operand has no double, or the first one is infinite. -/
theorem rem_eq_error_iff {a b : Operand} {f : Fault} :
    rem a b = .error f ↔ f = .tooLarge ∧ (¬a.HasDouble ∨ ¬b.HasDouble) ∨
      f = .undefinedRemainder ∧
        ∃ x y, a.toFloat = .ok x ∧ b.toFloat = .ok y ∧ Binary.remainder? x y = none := by
  rw [rem, onDoubles_eq_error_iff]
  refine or_congr_right ⟨?_, ?_⟩
  · intro ⟨x, y, hx, hy, h⟩
    split at h
    · cases h
    · rename_i hnone
      cases h
      exact ⟨rfl, x, y, hx, hy, hnone⟩
  · rintro ⟨rfl, x, y, hx, hy, hnone⟩
    refine ⟨x, y, hx, hy, ?_⟩
    rw [hnone]
    rfl

/-- An integer to a power that is no negative integer. -/
def Operand.IsExactPower (a b : Operand) : Prop := ∃ m n, a = .int m ∧ b = .int n ∧ 0 ≤ n

/-- A power is exact, or one of doubles. -/
theorem pow_eq (a b : Operand) :
    (a.IsExactPower b ∧ ∃ n, pow a b = .ok (.int n)) ∨
      ¬a.IsExactPower b ∧
        pow a b = do let x ← a.toFloat; let y ← b.toFloat; return normalize (← powFloat x y) := by
  rw [pow.eq_def]
  split
  · rename_i m n
    split
    · rename_i hn
      exact .inl ⟨⟨m, n, rfl, rfl, hn⟩, m.pow n.toNat, rfl⟩
    · rename_i hn
      refine .inr ⟨?_, rfl⟩
      rintro ⟨m', n', -, hn', h⟩
      cases hn'
      exact hn h
  · rename_i hints
    exact .inr ⟨fun ⟨m, n, ha, hb, _⟩ ↦ hints m n ha hb, rfl⟩

theorem pow_eq_error_iff {a b : Operand} {f : Fault} :
    pow a b = .error f ↔ ¬a.IsExactPower b ∧
      (f = .tooLarge ∧ (¬a.HasDouble ∨ ¬b.HasDouble) ∨
        ∃ x y, a.toFloat = .ok x ∧ b.toFloat = .ok y ∧ powFloat x y = .error f) := by
  obtain ⟨hexact, n, h⟩ | ⟨hexact, h⟩ := pow_eq a b
  · rw [h]
    exact iff_of_false (by simp) fun h ↦ h.1 hexact
  · have hstep : ∀ x y, (do return normalize (← powFloat x y)) = .error f ↔ powFloat x y = .error f := by
      intro x y
      rw [bind_eq_error]
      simp [pure, Except.pure]
    rw [h, onDoubles_eq_error_iff]
    simp only [hstep, hexact, not_false_eq_true, true_and]

/-- How a power of doubles may end. -/
inductive PowerEnds (x y : Float) : Except Fault Value → Prop
  | number (z : Float) : PowerEnds x y (.ok (.float z))
  | zero : (x == 0) = true → y < 0 → PowerEnds x y (.error .divisionByZero)
  | large : (x == 0) = false → PowerEnds x y (.error .tooLarge)
  /-- A negative number to a broken power. -/
  | complex (re im : Float) : x < 0 → Binary.isFinite y = true → Binary.toInt? y = none →
      PowerEnds x y (.ok (.complex re im))

theorem isFinite_of_not {x : Float} (hnan : ¬Binary.isNaN x = true) (hinf : ¬isInfinite x = true) :
    Binary.isFinite x = true := by
  rw [Binary.isNaN] at hnan
  rw [isInfinite] at hinf
  rw [Binary.isFinite]
  cases h : Binary.ofFloat x <;> simp_all

theorem powerEnds_of_finitePower {x y z : Float} {f : Float → Except Fault Value}
    (hx : (x == 0) = false) (hf : PowerEnds x y (f z)) : PowerEnds x y (finitePower z >>= f) := by
  rw [finitePower]
  split
  · exact .large hx
  · exact hf

theorem powerEnds_powFloat (x y : Float) : PowerEnds x y (powFloat x y) := by
  unfold powFloat
  split
  · exact .number _
  split
  · exact .number _
  split
  · exact .number _
  rename_i hx hy
  split
  · exact .number _
  rename_i hinf
  split
  · exact .number _
  split
  · rename_i hzero
    split
    · rename_i hneg
      exact .zero hzero hneg
    · exact .number _
  rename_i hzero
  have hzero : (x == 0) = false := Bool.eq_false_iff.mpr hzero
  split
  · rename_i hneg
    split
    · exact powerEnds_of_finitePower hzero (.number _)
    · rename_i hbroken
      apply powerEnds_of_finitePower hzero
      apply powerEnds_of_finitePower hzero
      exact .complex _ _ hneg (isFinite_of_not hy hinf) hbroken
  · exact powerEnds_of_finitePower hzero (.number _)

end Value

namespace Folding

open Value

theorem lift_eq_fault_iff {α : Type} {x : Except Fault α} {f : Fault} :
    lift x = .error (.fault f) ↔ x = .error f := by
  cases x <;> simp [lift, Except.mapError]

theorem onNumbers_eq_fault_iff {g : Operand → Operand → Outcome} {v w : Value} {f : Fault} :
    onNumbers g v w = .error (.fault f) ↔
      ∃ a b, v.operand? = some a ∧ w.operand? = some b ∧ g a b = .error (.fault f) := by
  rw [onNumbers]
  cases v.operand? <;> cases w.operand? <;> simp

/-- The operator turns the operands into doubles. -/
def TakesDoubles (operator : String) (a b : Operand) : Prop :=
  operator ∈ ["+", "-", "*"] ∧ ¬a.AreInts b ∨ operator = "/" ∧ b.isZero = false ∧ ¬a.AreInts b ∨
    operator = "%" ∧ b.isZero = false ∨ operator = "**" ∧ ¬a.IsExactPower b

/-- The ways in which an operation on two values breaks. -/
inductive OperationBreaks (operator : String) (v w : Value) : Fault → Prop
  /-- An integer is too long to be a part of a text. -/
  | text : operator = "+" → v.isText = true ∨ w.isText = true → v.HasLongInteger ∨ w.HasLongInteger →
      OperationBreaks operator v w (.tooManyDigits none)
  /-- An integer has no double near it. -/
  | noDouble {a b : Operand} : v.operand? = some a → w.operand? = some b → TakesDoubles operator a b →
      ¬a.HasDouble ∨ ¬b.HasDouble → OperationBreaks operator v w .tooLarge
  | quotient {m n : Int} : operator = "/" → v.operand? = some (.int m) → w.operand? = some (.int n) →
      n ≠ 0 → Binary.nearest? m.natAbs n.natAbs = none →
      OperationBreaks operator v w .tooLarge
  /-- There is no remainder of an infinite number. -/
  | remainder {a b : Operand} {x y : Float} : operator = "%" → v.operand? = some a →
      w.operand? = some b → b.isZero = false → a.toFloat = .ok x → b.toFloat = .ok y →
      Binary.remainder? x y = none → OperationBreaks operator v w .undefinedRemainder
  /-- Zero to a negative power, or a power that is too large. -/
  | power {a b : Operand} {x y : Float} {f : Fault} : operator = "**" → v.operand? = some a →
      w.operand? = some b → ¬a.IsExactPower b → a.toFloat = .ok x → b.toFloat = .ok y →
      powFloat x y = .error f → OperationBreaks operator v w f

theorem isText_of_operand? {v : Value} {a : Operand} (h : v.operand? = some a) : v.isText = false := by
  cases v <;> first | rfl | cases h

theorem plus_of_operands {v w : Value} {a b : Operand} (ha : v.operand? = some a)
    (hb : w.operand? = some b) : plus v w = lift (Value.add a b) := by
  rw [plus, isText_of_operand? ha, isText_of_operand? hb, onNumbers, ha, hb]
  rfl

theorem byNonzero_eq_fault_iff {g : Operand → Operand → Except Fault Value} {a b : Operand} {f : Fault} :
    byNonzero g a b = .error (.fault f) ↔ b.isZero = false ∧ g a b = .error f := by
  rw [byNonzero]
  cases b.isZero <;> simp [lift_eq_fault_iff]

theorem plus_of_text {v w : Value} (h : v.isText = true ∨ w.isText = true) :
    plus v w = do
      let s ← lift v.toText
      let t ← lift w.toText
      return .text (s ++ t) := by
  rw [plus, if_pos (by simpa using h)]

theorem plus_of_hasLongInteger {v w : Value} (h : v.isText = true ∨ w.isText = true)
    (hlong : v.HasLongInteger ∨ w.HasLongInteger) :
    plus v w = .error (.fault (.tooManyDigits none)) := by
  rw [plus_of_text h]
  cases ht : v.toText with
  | error e =>
    obtain ⟨rfl, -⟩ := (toText_eq_error_iff v).mp ht
    rfl
  | ok t =>
    have hv : ¬v.HasLongInteger := by
      intro hv
      rw [(toText_eq_error_iff v).mpr ⟨rfl, hv⟩] at ht
      cases ht
    rw [(toText_eq_error_iff w).mpr ⟨rfl, hlong.resolve_left hv⟩]
    rfl

theorem operationBreaks_of_combine {operator : String} {v w : Value} {f : Fault}
    {exact : Int → Int → Int} {rounded : Float → Float → Float} (hop : operator ∈ ["+", "-", "*"])
    (h : onNumbers (fun a b ↦ lift (combine exact rounded a b)) v w = .error (.fault f)) :
    OperationBreaks operator v w f := by
  obtain ⟨a, b, ha, hb, h⟩ := onNumbers_eq_fault_iff.mp h
  obtain ⟨hints, rfl, hdouble⟩ := combine_eq_error_iff.mp (lift_eq_fault_iff.mp h)
  exact .noDouble ha hb (.inl ⟨hop, hints⟩) hdouble

theorem operationBreaks_of_plus {v w : Value} {f : Fault} (h : plus v w = .error (.fault f)) :
    OperationBreaks "+" v w f := by
  by_cases htext : v.isText = true ∨ w.isText = true
  · rw [plus_of_text htext] at h
    obtain h | ⟨s, -, h⟩ := bind_eq_error.mp h
    · obtain ⟨rfl, hlong⟩ := (toText_eq_error_iff v).mp (lift_eq_fault_iff.mp h)
      exact .text rfl htext (.inl hlong)
    · obtain h | ⟨t, -, h⟩ := bind_eq_error.mp h
      · obtain ⟨rfl, hlong⟩ := (toText_eq_error_iff w).mp (lift_eq_fault_iff.mp h)
        exact .text rfl htext (.inr hlong)
      · cases h
  · rw [plus, if_neg (by simpa using htext)] at h
    exact operationBreaks_of_combine (by simp) h

theorem operationBreaks_of_operate {operator : String} {v w : Value} {f : Fault}
    (h : operate operator v w = .error (.fault f)) : OperationBreaks operator v w f := by
  unfold operate at h
  split at h
  · exact operationBreaks_of_plus h
  · cases h
  · cases h
  · exact operationBreaks_of_combine (by simp) h
  · exact operationBreaks_of_combine (by simp) h
  · obtain ⟨a, b, ha, hb, h⟩ := onNumbers_eq_fault_iff.mp h
    obtain ⟨hzero, h⟩ := byNonzero_eq_fault_iff.mp h
    obtain ⟨rfl, ⟨m, n, rfl, rfl, hnone⟩ | ⟨hints, hdouble⟩⟩ := div_eq_error_iff.mp h
    · exact .quotient rfl ha hb (by simpa [Operand.isZero] using hzero) hnone
    · exact .noDouble ha hb (.inr (.inl ⟨rfl, hzero, hints⟩)) hdouble
  · obtain ⟨a, b, ha, hb, h⟩ := onNumbers_eq_fault_iff.mp h
    obtain ⟨hzero, h⟩ := byNonzero_eq_fault_iff.mp h
    obtain ⟨rfl, hdouble⟩ | ⟨rfl, x, y, hx, hy, hnone⟩ := rem_eq_error_iff.mp h
    · exact .noDouble ha hb (.inr (.inr (.inl ⟨rfl, hzero⟩))) hdouble
    · exact .remainder rfl ha hb hzero hx hy hnone
  · obtain ⟨a, b, ha, hb, h⟩ := onNumbers_eq_fault_iff.mp h
    obtain ⟨hexact, ⟨rfl, hdouble⟩ | ⟨x, y, hx, hy, h⟩⟩ := pow_eq_error_iff.mp (lift_eq_fault_iff.mp h)
    · exact .noDouble ha hb (.inr (.inr (.inr ⟨rfl, hexact⟩))) hdouble
    · exact .power rfl ha hb hexact hx hy h
  · cases h

theorem operate_of_operationBreaks {operator : String} {v w : Value} {f : Fault}
    (h : OperationBreaks operator v w f) : operate operator v w = .error (.fault f) := by
  cases h with
  | text hop htext hlong =>
    subst hop
    exact plus_of_hasLongInteger htext hlong
  | @noDouble a b ha hb htakes hdouble =>
    obtain ⟨hop, hints⟩ | ⟨rfl, hzero, hints⟩ | ⟨rfl, hzero⟩ | ⟨rfl, hexact⟩ := htakes
    · have hcombine : ∀ exact rounded, lift (combine exact rounded a b) = .error (.fault .tooLarge) :=
        fun _ _ ↦ lift_eq_fault_iff.mpr (combine_eq_error_iff.mpr ⟨hints, rfl, hdouble⟩)
      simp only [List.mem_cons, List.not_mem_nil, or_false] at hop
      obtain rfl | rfl | rfl := hop
      · exact (plus_of_operands ha hb).trans (hcombine _ _)
      · exact onNumbers_eq_fault_iff.mpr ⟨a, b, ha, hb, hcombine _ _⟩
      · exact onNumbers_eq_fault_iff.mpr ⟨a, b, ha, hb, hcombine _ _⟩
    · refine onNumbers_eq_fault_iff.mpr ⟨a, b, ha, hb, byNonzero_eq_fault_iff.mpr ⟨hzero, ?_⟩⟩
      exact div_eq_error_iff.mpr ⟨rfl, .inr ⟨hints, hdouble⟩⟩
    · refine onNumbers_eq_fault_iff.mpr ⟨a, b, ha, hb, byNonzero_eq_fault_iff.mpr ⟨hzero, ?_⟩⟩
      exact rem_eq_error_iff.mpr (.inl ⟨rfl, hdouble⟩)
    · refine onNumbers_eq_fault_iff.mpr ⟨a, b, ha, hb, lift_eq_fault_iff.mpr ?_⟩
      exact pow_eq_error_iff.mpr ⟨hexact, .inl ⟨rfl, hdouble⟩⟩
  | @quotient m n hop ha hb hn hnone =>
    subst hop
    refine onNumbers_eq_fault_iff.mpr ⟨_, _, ha, hb, byNonzero_eq_fault_iff.mpr ⟨?_, ?_⟩⟩
    · simpa [Operand.isZero] using hn
    · exact div_eq_error_iff.mpr ⟨rfl, .inl ⟨m, n, rfl, rfl, hnone⟩⟩
  | @remainder a b x y hop ha hb hzero hx hy hnone =>
    subst hop
    refine onNumbers_eq_fault_iff.mpr ⟨a, b, ha, hb, byNonzero_eq_fault_iff.mpr ⟨hzero, ?_⟩⟩
    exact rem_eq_error_iff.mpr (.inr ⟨rfl, x, y, hx, hy, hnone⟩)
  | @power a b x y f hop ha hb hexact hx hy hpow =>
    subst hop
    refine onNumbers_eq_fault_iff.mpr ⟨a, b, ha, hb, lift_eq_fault_iff.mpr ?_⟩
    exact pow_eq_error_iff.mpr ⟨hexact, .inr ⟨x, y, hx, hy, hpow⟩⟩

/-- The ways in which an operation breaks are all there are. -/
theorem operate_eq_fault_iff {operator : String} {v w : Value} {f : Fault} :
    operate operator v w = .error (.fault f) ↔ OperationBreaks operator v w f :=
  ⟨operationBreaks_of_operate, operate_of_operationBreaks⟩

/-- A negative number to a broken power. -/
def IsBrokenPower (operator : String) (v w : Value) : Prop :=
  operator = "**" ∧ ∃ a b x y, v.operand? = some a ∧ w.operand? = some b ∧ a.toFloat = .ok x ∧
    b.toFloat = .ok y ∧ x < 0 ∧ Binary.isFinite y = true ∧ Binary.toInt? y = none

theorem onNumbers_eq_ok {g : Operand → Operand → Outcome} {v w u : Value} (h : onNumbers g v w = .ok u) :
    ∃ a b, v.operand? = some a ∧ w.operand? = some b ∧ g a b = .ok u := by
  rw [onNumbers] at h
  split at h
  · rename_i a b ha hb
    exact ⟨a, b, ha, hb, h⟩
  · cases h

theorem isPlain_of_onDoubles {a b : Operand} {g : Float → Float → Float} {u : Value}
    (h : (do let x ← a.toFloat; let y ← b.toFloat; return normalize (.float (g x y))) = .ok u) :
    u.IsPlain := by
  obtain ⟨x, -, h⟩ := bind_eq_ok.mp h
  obtain ⟨y, -, h⟩ := bind_eq_ok.mp h
  rw [← pure_eq_ok.mp h]
  exact .normalize_float _

theorem isPlain_of_combine {exact : Int → Int → Int} {rounded : Float → Float → Float} {a b : Operand}
    {u : Value} (h : combine exact rounded a b = .ok u) : u.IsPlain := by
  rw [combine.eq_def] at h
  split at h
  · cases h
    exact .int _
  · exact isPlain_of_onDoubles h

theorem isPlain_of_div {a b : Operand} {u : Value} (h : div a b = .ok u) : u.IsPlain := by
  rw [div.eq_def] at h
  split at h
  · split at h
    · cases h
      exact .normalize_float _
    · cases h
  · exact isPlain_of_onDoubles h

theorem isPlain_of_rem {a b : Operand} {u : Value} (h : rem a b = .ok u) : u.IsPlain := by
  obtain ⟨x, -, h⟩ := bind_eq_ok.mp h
  obtain ⟨y, -, h⟩ := bind_eq_ok.mp h
  split at h
  · cases h
    exact .normalize_float _
  · cases h

/-- An operation leaves the values of a script only by a negative number to a broken power. -/
theorem isPlain_of_operate {operator : String} {v w u : Value} (h : operate operator v w = .ok u)
    (hpower : ¬IsBrokenPower operator v w) : u.IsPlain := by
  unfold operate at h
  split at h
  · rw [plus] at h
    split at h
    · obtain ⟨s, -, h⟩ := bind_eq_ok.mp h
      obtain ⟨t, -, h⟩ := bind_eq_ok.mp h
      rw [← pure_eq_ok.mp h]
      exact .text _
    · obtain ⟨a, b, -, -, h⟩ := onNumbers_eq_ok h
      exact isPlain_of_combine (lift_eq_ok.mp h)
  · cases h
    exact .bool _
  · cases h
    exact .bool _
  · obtain ⟨a, b, -, -, h⟩ := onNumbers_eq_ok h
    exact isPlain_of_combine (lift_eq_ok.mp h)
  · obtain ⟨a, b, -, -, h⟩ := onNumbers_eq_ok h
    exact isPlain_of_combine (lift_eq_ok.mp h)
  · obtain ⟨a, b, -, -, h⟩ := onNumbers_eq_ok h
    rw [byNonzero] at h
    split at h
    · cases h
    · exact isPlain_of_div (lift_eq_ok.mp h)
  · obtain ⟨a, b, -, -, h⟩ := onNumbers_eq_ok h
    rw [byNonzero] at h
    split at h
    · cases h
    · exact isPlain_of_rem (lift_eq_ok.mp h)
  · obtain ⟨a, b, ha, hb, h⟩ := onNumbers_eq_ok h
    obtain ⟨-, n, hpow⟩ | ⟨-, hpow⟩ := pow_eq a b
    · rw [hpow] at h
      cases h
      exact .int n
    · rw [hpow, lift_eq_ok] at h
      obtain ⟨x, hx, h⟩ := bind_eq_ok.mp h
      obtain ⟨y, hy, h⟩ := bind_eq_ok.mp h
      obtain ⟨u', hu', h⟩ := bind_eq_ok.mp h
      rw [← pure_eq_ok.mp h]
      have hends := powerEnds_powFloat x y
      rw [hu'] at hends
      cases hends with
      | number z => exact .normalize_float z
      | complex re im hneg hfinite hbroken =>
        exact absurd ⟨rfl, a, b, x, y, ha, hb, hx, hy, hneg, hfinite, hbroken⟩ hpower
  · cases h

/-- An operation on one value breaks in no way. -/
theorem operateAlone_ne_fault (operator : String) (v : Value) (f : Fault) :
    operateAlone operator v ≠ .error (.fault f) := by
  unfold operateAlone
  split <;> simp

theorem isPlain_of_operateAlone {operator : String} {v w : Value} (hv : v.IsPlain)
    (h : operateAlone operator v = .ok w) : w.IsPlain := by
  unfold operateAlone at h
  split at h
  · cases h
    exact .bool _
  · rename_i a _
    cases h
    cases a with
    | int n => exact .int (-n)
    | float x => exact .float (-x)
  · cases h
    exact hv
  · cases h

end Folding

end MessageExtraction
