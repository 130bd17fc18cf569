import MessageExtraction.Message.Catalog
import MessageExtraction.Proofs.Result

/-!
What can be encoded. A value that is put into words has bytes exactly when all texts in it have: the
signs, the digits and the escapes around them always do.
-/

namespace MessageExtraction

namespace CodePoint

/-- A code point that has bytes: one that is no surrogate. -/
def IsScalar (c : Nat) : Prop := c < 0x110000 ∧ ¬(0xD800 ≤ c ∧ c ≤ 0xDFFF)

instance : DecidablePred IsScalar := fun _ ↦ inferInstanceAs (Decidable (_ ∧ _))

theorem isScalar_of_lt {c : Nat} (h : c < 0x80) : IsScalar c := by
  rw [IsScalar]
  omega

theorem isScalar_toNat (c : Char) : IsScalar c.toNat := by
  have h := c.valid
  simp only [UInt32.isValidChar, Nat.isValidChar] at h
  rw [IsScalar, Char.toNat]
  omega

theorem encodePoint?_isSome_iff {c : Nat} : (Utf8.encodePoint? c).isSome ↔ IsScalar c := by
  unfold Utf8.encodePoint? IsScalar isSurrogate CodePoint
  grind

end CodePoint

namespace Text

/-- All characters have bytes. -/
def IsEncodable (t : Text) : Prop := ∀ c ∈ t, CodePoint.IsScalar c

@[simp] theorem isEncodable_nil : IsEncodable [] := nofun

@[simp] theorem isEncodable_cons {c : CodePoint} {t : Text} :
    IsEncodable (c :: t) ↔ CodePoint.IsScalar c ∧ t.IsEncodable :=
  List.forall_mem_cons

@[simp] theorem isEncodable_append {t u : Text} :
    IsEncodable (t ++ u) ↔ t.IsEncodable ∧ u.IsEncodable :=
  List.forall_mem_append

theorem encode?_isSome_iff {t : Text} : (Utf8.encode? t).isSome ↔ t.IsEncodable := by
  have h : (Utf8.encode? t).isSome = (t.mapM Utf8.encodePoint?).isSome := by
    rw [Utf8.encode?]
    cases t.mapM Utf8.encodePoint? <;> rfl
  rw [h]
  clear h
  induction t with
  | nil => simp
  | cons c t ih =>
    refine .trans ?_ ((and_congr CodePoint.encodePoint?_isSome_iff ih).trans isEncodable_cons.symm)
    rw [List.mapM_cons]
    cases Utf8.encodePoint? c <;> cases t.mapM Utf8.encodePoint? <;> simp

theorem isEncodable_map_toNat (cs : List Char) : IsEncodable (cs.map Char.toNat) :=
  List.forall_mem_map.mpr fun c _ ↦ CodePoint.isScalar_toNat c

@[simp] theorem isEncodable_ofString (s : String) : IsEncodable (ofString s) :=
  isEncodable_map_toNat _

@[simp] theorem isEncodable_ofNat (n : Nat) : IsEncodable (ofNat n) := isEncodable_map_toNat _

@[simp] theorem isEncodable_ofNatHex (n : Nat) : IsEncodable (ofNatHex n) := isEncodable_map_toNat _

@[simp] theorem isEncodable_replicate {n c : Nat} (h : CodePoint.IsScalar c) :
    IsEncodable (List.replicate n c) := by
  intro d hd
  rwa [List.eq_of_mem_replicate hd]

theorem IsEncodable.take {t : Text} (h : t.IsEncodable) (n : Nat) : IsEncodable (t.take n) :=
  fun c hc ↦ h c (List.mem_of_mem_take hc)

theorem IsEncodable.drop {t : Text} (h : t.IsEncodable) (n : Nat) : IsEncodable (t.drop n) :=
  fun c hc ↦ h c (List.mem_of_mem_drop hc)

@[simp] theorem isEncodable_padLeft {width c : Nat} {t : Text} (h : CodePoint.IsScalar c) :
    (padLeft width c t).IsEncodable ↔ t.IsEncodable := by
  simp [padLeft, h]

end Text

open Text

theorem Value.isEncodable_of_integerText {n : Int} {t : Text} (h : Value.integerText n = .ok t) :
    t.IsEncodable := by
  rw [Value.integerText] at h
  split at h
  · cases h
  · obtain rfl := Except.ok.inj h
    have hhyphen : CodePoint.IsScalar CodePoint.hyphen := by decide
    split <;> simp [hhyphen]

namespace Number

theorem isEncodable_positional {f : Format} {digits : Text} (h : digits.IsEncodable) (top : Int) :
    (positional f digits top).IsEncodable := by
  have hzero : CodePoint.IsScalar 0x30 := by decide
  have hperiod : CodePoint.IsScalar CodePoint.period := by decide
  rw [positional]
  split
  · simp [h, hzero]
  · simp only
    split
    · split <;> simp [h, hzero]
    · simp [h.take, h.drop, hperiod]

theorem isEncodable_exponential {f : Format} {digits : Text} (h : digits.IsEncodable) (top : Int) :
    (exponential f digits top).IsEncodable := by
  have hzero : CodePoint.IsScalar 0x30 := by decide
  have hperiod : CodePoint.IsScalar CodePoint.period := by decide
  rw [exponential]
  simp only [isEncodable_append]
  refine ⟨⟨⟨h.take 1, ?_⟩, ?_⟩, by simp [hzero]⟩
  · split
    · simp
    · exact isEncodable_cons.mpr ⟨hperiod, h.drop 1⟩
  · split <;> simp

theorem isEncodable_written (f : Format) (x : Float) : (written f x).IsEncodable := by
  have hhyphen : CodePoint.IsScalar CodePoint.hyphen := by decide
  have hzero : CodePoint.IsScalar 0x30 := by decide
  have hsign (negative : Bool) : IsEncodable (if negative then [CodePoint.hyphen] else []) := by
    cases negative <;> simp [hhyphen]
  rw [written]
  split
  · simp
  · simp [hsign]
  · simp [hsign, isEncodable_positional, hzero]
  · simp only [isEncodable_append]
    refine ⟨hsign _, ?_⟩
    split
    · exact isEncodable_positional (by simp) _
    · exact isEncodable_exponential (by simp) _

end Number

namespace Json

theorem isEncodable_escapedPoint {c : Nat} :
    (escapedPoint c).IsEncodable ↔ CodePoint.IsScalar c := by
  have hascii (h : c < 0x80) {t : Text} (ht : t.IsEncodable) :
      t.IsEncodable ↔ CodePoint.IsScalar c :=
    iff_of_true ht (CodePoint.isScalar_of_lt h)
  have hzero : CodePoint.IsScalar 0x30 := by decide
  unfold escapedPoint
  iterate 7
    split
    · rename_i h
      exact hascii (by rw [h]; decide) (by simp)
  split
  · rename_i h
    exact hascii (Nat.lt_trans h (by decide)) (by simp [hzero])
  · simp

theorem isEncodable_stringText {t : Text} : (stringText t).IsEncodable ↔ t.IsEncodable := by
  have hquote : CodePoint.IsScalar CodePoint.doubleQuote := by decide
  induction t with
  | nil => simp [stringText, hquote]
  | cons c t ih =>
    simp [stringText, hquote] at ih
    simp [stringText, hquote, isEncodable_escapedPoint, ih]

mutual

/-- The texts in a value, the names of members among them. -/
def texts : Json → List Text
  | .text t => [t]
  | .list items => itemTexts items
  | .object members => memberTexts members
  | _ => []

def itemTexts : List Json → List Text
  | [] => []
  | j :: rest => j.texts ++ itemTexts rest

def memberTexts : List (Text × Json) → List Text
  | [] => []
  | (name, j) :: rest => name :: (j.texts ++ memberTexts rest)

end

/-- Whether all texts in a value have bytes. -/
def IsEncodable (j : Json) : Prop := ∀ t ∈ j.texts, Text.IsEncodable t

theorem isEncodable_lineBreak (layout : Layout) (level : Nat) :
    Text.IsEncodable (lineBreak layout level) := by
  have hbreak : CodePoint.IsScalar CodePoint.lineFeed := by decide
  have hspace : CodePoint.IsScalar CodePoint.space := by decide
  cases layout <;> simp [lineBreak, hbreak, hspace]

theorem isEncodable_itemBreak (layout : Layout) (level : Nat) :
    Text.IsEncodable (itemBreak layout level) := by
  have hcomma : CodePoint.IsScalar CodePoint.comma := by decide
  have hspace : CodePoint.IsScalar CodePoint.space := by decide
  cases layout <;> simp [itemBreak, isEncodable_lineBreak, hcomma, hspace]

mutual

/-- A value in words has bytes exactly when its texts have. -/
theorem isEncodable_printAt {layout : Layout} {level : Nat} {j : Json} {t : Text}
    (h : printAt layout level j = .ok t) : t.IsEncodable ↔ j.IsEncodable := by
  have hbrackets : CodePoint.IsScalar CodePoint.openBracket ∧
      CodePoint.IsScalar CodePoint.closeBracket := by decide
  have hbraces : CodePoint.IsScalar CodePoint.openBrace ∧
      CodePoint.IsScalar CodePoint.closeBrace := by decide
  have hcolon : CodePoint.IsScalar CodePoint.colon ∧ CodePoint.IsScalar CodePoint.space := by decide
  cases j with
  | null =>
    obtain rfl := Except.ok.inj h
    simp [IsEncodable, texts]
  | bool b =>
    obtain rfl := Except.ok.inj h
    cases b <;> simp [IsEncodable, texts]
  | int n => simp [IsEncodable, texts, Value.isEncodable_of_integerText h]
  | float x =>
    obtain rfl := Except.ok.inj h
    simp [IsEncodable, texts, Number.isEncodable_written]
  | text s =>
    obtain rfl := Except.ok.inj h
    simp [IsEncodable, texts, isEncodable_stringText]
  | list items =>
    cases items with
    | nil =>
      obtain rfl := Except.ok.inj h
      simp [IsEncodable, texts, itemTexts, hbrackets]
    | cons item rest =>
      rw [printAt] at h
      obtain ⟨first, hfirst, h⟩ := bind_eq_ok.mp h
      obtain ⟨others, hothers, h⟩ := bind_eq_ok.mp h
      rw [← pure_eq_ok.mp h, IsEncodable, texts, itemTexts, List.forall_mem_append,
        ← isEncodable_printItems hothers]
      simp [isEncodable_lineBreak, hbrackets, isEncodable_printAt hfirst, IsEncodable]
  | object members =>
    cases members with
    | nil =>
      obtain rfl := Except.ok.inj h
      simp [IsEncodable, texts, memberTexts, hbraces]
    | cons member rest =>
      obtain ⟨name, j⟩ := member
      rw [printAt] at h
      obtain ⟨first, hfirst, h⟩ := bind_eq_ok.mp h
      obtain ⟨others, hothers, h⟩ := bind_eq_ok.mp h
      rw [← pure_eq_ok.mp h, IsEncodable, texts, memberTexts,
        List.forall_mem_cons, List.forall_mem_append, ← isEncodable_printMembers hothers]
      simp [isEncodable_lineBreak, isEncodable_stringText, hbraces, hcolon,
        isEncodable_printAt hfirst, IsEncodable]

theorem isEncodable_printItems {layout : Layout} {level : Nat} {items : List Json} {t : Text}
    (h : printItems layout level items = .ok t) :
    t.IsEncodable ↔ ∀ s ∈ itemTexts items, Text.IsEncodable s := by
  cases items with
  | nil =>
    obtain rfl := Except.ok.inj h
    simp [itemTexts]
  | cons item rest =>
    rw [printItems] at h
    obtain ⟨first, hfirst, h⟩ := bind_eq_ok.mp h
    obtain ⟨others, hothers, h⟩ := bind_eq_ok.mp h
    rw [← pure_eq_ok.mp h, itemTexts, List.forall_mem_append, ← isEncodable_printItems hothers]
    simp [isEncodable_itemBreak, isEncodable_printAt hfirst, IsEncodable]

theorem isEncodable_printMembers {layout : Layout} {level : Nat} {members : List (Text × Json)}
    {t : Text} (h : printMembers layout level members = .ok t) :
    t.IsEncodable ↔ ∀ s ∈ memberTexts members, Text.IsEncodable s := by
  have hcolon : CodePoint.IsScalar CodePoint.colon ∧ CodePoint.IsScalar CodePoint.space := by decide
  cases members with
  | nil =>
    obtain rfl := Except.ok.inj h
    simp [memberTexts]
  | cons member rest =>
    obtain ⟨name, j⟩ := member
    rw [printMembers] at h
    obtain ⟨first, hfirst, h⟩ := bind_eq_ok.mp h
    obtain ⟨others, hothers, h⟩ := bind_eq_ok.mp h
    rw [← pure_eq_ok.mp h, memberTexts, List.forall_mem_cons,
      List.forall_mem_append, ← isEncodable_printMembers hothers]
    simp [isEncodable_itemBreak, isEncodable_stringText, hcolon, isEncodable_printAt hfirst,
      IsEncodable]

end

theorem isEncodable_list {items : List Json} :
    (list items).IsEncodable ↔ ∀ j ∈ items, j.IsEncodable := by
  rw [IsEncodable, texts]
  induction items with
  | nil => simp [itemTexts]
  | cons j items ih => rw [itemTexts, List.forall_mem_append, ih, List.forall_mem_cons, IsEncodable]

end Json

namespace Message

def IsEncodable (m : Message) : Prop := m.toJson.IsEncodable

/-- A catalog in words has bytes exactly when the texts of all its messages have. -/
theorem encode?_dump_isSome_iff {messages : List Message} {t : Text} (h : dump messages = .ok t) :
    (Utf8.encode? t).isSome ↔ ∀ m ∈ messages, m.IsEncodable := by
  rw [Text.encode?_isSome_iff, Json.isEncodable_printAt h, Json.isEncodable_list,
    List.forall_mem_map]
  rfl

end Message

end MessageExtraction
