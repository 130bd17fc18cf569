import MessageExtraction.Json.Printer
import MessageExtraction.Proofs.Json.Scalars
import MessageExtraction.Proofs.Number.Numerals

/-!
The grammar of JSON: a text is one value with spacing around it, and a value is one of three words, a
number, a string, a list or an object. The words of a value whose doubles are all finite are in the
grammar, whatever the layout.
-/

namespace MessageExtraction.Json

open Number Text

section Grammar

/-- Blanks, tabs and the ends of lines. -/
def IsSpacing (t : Text) : Prop :=
  ∀ c ∈ t, c ∈ [CodePoint.space, CodePoint.tab, CodePoint.lineFeed, CodePoint.carriageReturn]

/-- A sign, digits without a zero before others, then perhaps a fraction and perhaps an exponent. -/
inductive IsNumber : Text → Prop
  | mk {minus whole fraction power : Text} : minus = [] ∨ minus = [CodePoint.hyphen] →
      IsDigits whole → whole = [0x30] ∨ whole.head? ≠ some 0x30 →
      (fraction = [] ∨ ∃ ds, fraction = CodePoint.period :: ds ∧ IsDigits ds) →
      (power = [] ∨ ∃ e sign ds, power = e :: (sign ++ ds) ∧ (e = 0x65 ∨ e = 0x45) ∧
        (sign = [] ∨ sign = [CodePoint.plus] ∨ sign = [CodePoint.hyphen]) ∧ IsDigits ds) →
      IsNumber (minus ++ (whole ++ fraction ++ power))

/-- A character of a string: itself, a backslash with a letter for it, or its number. Of the code
points only those below the blank, the quote and the backslash cannot stand for themselves. -/
inductive IsCharacter : Text → Prop
  | plain {c : CodePoint} : 0x20 ≤ c → c ≠ CodePoint.doubleQuote → c ≠ CodePoint.backslash →
      IsCharacter [c]
  | letter {c : CodePoint} : c ∈ ofString "\"\\/bfnrt" → IsCharacter [CodePoint.backslash, c]
  | number {ds : Text} : ds.length = 4 → (∀ d ∈ ds, CodePoint.isHex d = true) →
      IsCharacter (CodePoint.backslash :: CodePoint.letterU :: ds)

def IsString (t : Text) : Prop :=
  ∃ cs : List Text, (∀ c ∈ cs, IsCharacter c) ∧
    t = CodePoint.doubleQuote :: cs.flatten ++ [CodePoint.doubleQuote]

/-- A text with the spacing around it. -/
structure Padded where
  before : Text
  inner : Text
  after : Text
  isSpacing_before : IsSpacing before
  isSpacing_after : IsSpacing after

def Padded.text (p : Padded) : Text := p.before ++ p.inner ++ p.after

inductive IsValue : Text → Prop
  | word {w : String} : w ∈ ["null", "true", "false"] → IsValue (ofString w)
  | number {t : Text} : IsNumber t → IsValue t
  | string {t : Text} : IsString t → IsValue t
  | emptyList {t : Text} : IsSpacing t →
      IsValue (CodePoint.openBracket :: t ++ [CodePoint.closeBracket])
  | list {items : List Padded} : items ≠ [] → (∀ p ∈ items, IsValue p.inner) →
      IsValue (CodePoint.openBracket :: joinWith [CodePoint.comma] (items.map Padded.text)
        ++ [CodePoint.closeBracket])
  | emptyObject {t : Text} : IsSpacing t →
      IsValue (CodePoint.openBrace :: t ++ [CodePoint.closeBrace])
  | object {members : List (Padded × Padded)} : members ≠ [] →
      (∀ m ∈ members, IsString m.1.inner) → (∀ m ∈ members, IsValue m.2.inner) →
      IsValue (CodePoint.openBrace
        :: joinWith [CodePoint.comma] (members.map fun m ↦ m.1.text ++ CodePoint.colon :: m.2.text)
        ++ [CodePoint.closeBrace])

/-- A text of JSON is one value. So is what stands between two commas of a list. -/
def IsText (t : Text) : Prop := ∃ p : Padded, IsValue p.inner ∧ t = p.text

end Grammar

section Words

variable {layout : Layout} {level : Nat}

/-- Parts between brackets, with commas and line breaks between them. -/
def enclosed (layout : Layout) (level : Nat) (opening closing : CodePoint) (first : Text)
    (others : List Text) : Text :=
  opening :: lineBreak layout (level + 1) ++ first
    ++ others.flatMap (itemBreak layout (level + 1) ++ ·) ++ lineBreak layout level ++ [closing]

def Prints (layout : Layout) (level : Nat) (j : Json) (t : Text) : Prop :=
  printAt layout level j = .ok t

def PrintsMember (layout : Layout) (level : Nat) (m : Text × Json) (t : Text) : Prop :=
  ∃ u, Prints layout level m.2 u ∧ t = stringText m.1 ++ [CodePoint.colon, CodePoint.space] ++ u

theorem printItems_eq_ok {items : List Json} {t : Text}
    (h : printItems layout level items = .ok t) : ∃ parts,
      List.Forall₂ (Prints layout level) items parts ∧
        t = parts.flatMap (itemBreak layout level ++ ·) := by
  induction items generalizing t with
  | nil =>
    cases h
    exact ⟨[], .nil, rfl⟩
  | cons item items ih =>
    rw [printItems] at h
    obtain ⟨first, hfirst, h⟩ := bind_eq_ok.mp h
    obtain ⟨others, hothers, h⟩ := bind_eq_ok.mp h
    obtain ⟨parts, hparts, rfl⟩ := ih hothers
    exact ⟨first :: parts, .cons hfirst hparts, (pure_eq_ok.mp h).symm⟩

theorem printMembers_eq_ok {members : List (Text × Json)} {t : Text}
    (h : printMembers layout level members = .ok t) : ∃ parts,
      List.Forall₂ (PrintsMember layout level) members parts ∧
        t = parts.flatMap (itemBreak layout level ++ ·) := by
  induction members generalizing t with
  | nil =>
    cases h
    exact ⟨[], .nil, rfl⟩
  | cons m members ih =>
    rw [printMembers] at h
    obtain ⟨first, hfirst, h⟩ := bind_eq_ok.mp h
    obtain ⟨others, hothers, h⟩ := bind_eq_ok.mp h
    obtain ⟨parts, hparts, rfl⟩ := ih hothers
    refine ⟨_ :: parts, .cons ⟨first, hfirst, rfl⟩ hparts, ?_⟩
    rw [← pure_eq_ok.mp h, List.flatMap_cons]
    simp

theorem printAt_list_eq_ok {item : Json} {items : List Json} {t : Text}
    (h : printAt layout level (.list (item :: items)) = .ok t) : ∃ first others,
      List.Forall₂ (Prints layout (level + 1)) (item :: items) (first :: others) ∧
        t = enclosed layout level CodePoint.openBracket CodePoint.closeBracket first others := by
  rw [printAt] at h
  obtain ⟨first, hfirst, h⟩ := bind_eq_ok.mp h
  obtain ⟨others, hothers, h⟩ := bind_eq_ok.mp h
  obtain ⟨parts, hparts, rfl⟩ := printItems_eq_ok hothers
  exact ⟨first, parts, .cons hfirst hparts, (pure_eq_ok.mp h).symm⟩

theorem printAt_object_eq_ok {m : Text × Json} {members : List (Text × Json)} {t : Text}
    (h : printAt layout level (.object (m :: members)) = .ok t) : ∃ first others,
      List.Forall₂ (PrintsMember layout (level + 1)) (m :: members) (first :: others) ∧
        t = enclosed layout level CodePoint.openBrace CodePoint.closeBrace first others := by
  rw [printAt] at h
  obtain ⟨first, hfirst, h⟩ := bind_eq_ok.mp h
  obtain ⟨others, hothers, h⟩ := bind_eq_ok.mp h
  obtain ⟨parts, hparts, rfl⟩ := printMembers_eq_ok hothers
  refine ⟨_, parts, .cons ⟨first, hfirst, rfl⟩ hparts, ?_⟩
  rw [← pure_eq_ok.mp h, enclosed]
  simp

end Words

section Printed

variable {layout : Layout} {level : Nat}

theorem isSpacing_nil : IsSpacing [] := by simp [IsSpacing]

theorem isSpacing_space : IsSpacing [CodePoint.space] := by simp [IsSpacing]

theorem IsSpacing.append {t u : Text} (ht : IsSpacing t) (hu : IsSpacing u) : IsSpacing (t ++ u) :=
  List.forall_mem_append.mpr ⟨ht, hu⟩

theorem isSpacing_lineBreak (layout : Layout) (level : Nat) :
    IsSpacing (lineBreak layout level) := by
  cases layout with
  | inline => exact isSpacing_nil
  | indented width =>
    intro c hc
    obtain rfl | hc := List.mem_cons.mp hc
    · simp
    · rw [List.eq_of_mem_replicate hc]
      simp

/-- Between two parts stands a comma with spacing after it. -/
theorem exists_itemBreak_eq (layout : Layout) (level : Nat) :
    ∃ spacing, IsSpacing spacing ∧ itemBreak layout level = CodePoint.comma :: spacing := by
  cases layout with
  | inline => exact ⟨_, isSpacing_space, rfl⟩
  | indented width => exact ⟨_, isSpacing_lineBreak _ level, rfl⟩

theorem isNumber_of_numeral (negative : Bool) (n : Numeral) :
    IsNumber ((if negative then [CodePoint.hyphen] else []) ++ n.text) := by
  refine .mk ?_ n.isDigits_whole n.whole_eq_or n.fraction_eq ?_
  · cases negative <;> simp
  · obtain h | ⟨sign, ds, h, hsign, hds⟩ := n.power_eq
    · exact .inl h
    · exact .inr ⟨_, sign, ds, h, .inl rfl, hsign, hds⟩

theorem isCharacter_escapedPoint (c : CodePoint) : IsCharacter (escapedPoint c) := by
  unfold escapedPoint
  iterate 7
    split
    · exact .letter (by decide)
  rename_i hquote hbackslash _ _ _ _ _
  split
  · rename_i hc
    have hdigits : ∀ c : Nat, c < 0x20 → (padLeft 4 0x30 (ofNatHex c)).length = 4 ∧
        ∀ d ∈ padLeft 4 0x30 (ofNatHex c), CodePoint.isHex d = true := by decide
    exact .number (hdigits c hc).1 (hdigits c hc).2
  · rename_i hc
    exact .plain (not_lt.mp hc) hquote hbackslash

theorem isString_stringText (t : Text) : IsString (stringText t) := by
  refine ⟨t.map escapedPoint, ?_, ?_⟩
  · rw [List.forall_mem_map]
    exact fun c _ ↦ isCharacter_escapedPoint c
  · rw [stringText, List.flatMap]

/-- What an object holds between its commas. -/
def IsMember (t : Text) : Prop :=
  ∃ p : Padded × Padded, (IsString p.1.inner ∧ IsValue p.2.inner) ∧
    t = p.1.text ++ CodePoint.colon :: p.2.text

/-- Spacing may be added around a text. -/
def TakesSpacing (P : Text → Prop) : Prop :=
  ∀ before t after, P t → IsSpacing before → IsSpacing after → P (before ++ t ++ after)

theorem takesSpacing_isText : TakesSpacing IsText := by
  rintro before t after ⟨p, hp, rfl⟩ hbefore hafter
  exact ⟨⟨before ++ p.before, p.inner, p.after ++ after, hbefore.append p.isSpacing_before,
    p.isSpacing_after.append hafter⟩, hp, by simp [Padded.text]⟩

theorem takesSpacing_isMember : TakesSpacing IsMember := by
  rintro before t after ⟨⟨name, p⟩, hp, rfl⟩ hbefore hafter
  exact ⟨⟨⟨before ++ name.before, name.inner, name.after, hbefore.append name.isSpacing_before,
    name.isSpacing_after⟩, ⟨p.before, p.inner, p.after ++ after, p.isSpacing_before,
    p.isSpacing_after.append hafter⟩⟩, hp, by simp [Padded.text]⟩

theorem isText_of_isValue {t : Text} (h : IsValue t) : IsText t :=
  ⟨⟨[], t, [], isSpacing_nil, isSpacing_nil⟩, h, by simp [Padded.text]⟩

theorem isMember_of_isValue {t : Text} (name : Text) (h : IsValue t) :
    IsMember (stringText name ++ [CodePoint.colon, CodePoint.space] ++ t) :=
  ⟨⟨⟨[], stringText name, [], isSpacing_nil, isSpacing_nil⟩,
    ⟨[CodePoint.space], t, [], isSpacing_space, isSpacing_nil⟩⟩, ⟨isString_stringText name, h⟩,
    by simp [Padded.text]⟩

theorem joinWith_cons (separator t : Text) {ts : List Text} (h : ts ≠ []) :
    joinWith separator (t :: ts) = t ++ separator ++ joinWith separator ts := by
  obtain ⟨u, ts, rfl⟩ := List.exists_cons_of_ne_nil h
  rw [joinWith]
  simp

/-- Parts on their lines are parts with commas between them. -/
theorem exists_joinWith_eq {P : Text → Prop} (hP : TakesSpacing P) (layout : Layout) (level : Nat)
    {before after first : Text} {others : List Text} (hbefore : IsSpacing before)
    (hafter : IsSpacing after) (hfirst : P first) (hothers : ∀ t ∈ others, P t) :
    ∃ parts, parts ≠ [] ∧ (∀ t ∈ parts, P t) ∧
      before ++ first ++ others.flatMap (itemBreak layout level ++ ·) ++ after =
        joinWith [CodePoint.comma] parts := by
  induction others generalizing before first with
  | nil =>
    refine ⟨[before ++ first ++ after], by simp, ?_, by simp [joinWith]⟩
    rw [List.forall_mem_singleton]
    exact hP _ _ _ hfirst hbefore hafter
  | cons second others ih =>
    rw [List.forall_mem_cons] at hothers
    obtain ⟨spacing, hspacing, hbreak⟩ := exists_itemBreak_eq layout level
    -- the spacing after a comma belongs to the part that follows it
    obtain ⟨parts, hne, hparts, heq⟩ := ih hspacing hothers.1 hothers.2
    have hhead : P (before ++ first) := by
      simpa using hP _ _ _ hfirst hbefore isSpacing_nil
    refine ⟨(before ++ first) :: parts, by simp, List.forall_mem_cons.mpr ⟨hhead, hparts⟩, ?_⟩
    rw [joinWith_cons _ _ hne, ← heq, List.flatMap_cons, hbreak]
    simp

/-- Texts that are each made of something are the list of what they are made of. -/
theorem exists_map_eq {α : Type} {P : α → Prop} {f : α → Text} {ts : List Text}
    (h : ∀ t ∈ ts, ∃ a, P a ∧ t = f a) : ∃ as : List α, (∀ a ∈ as, P a) ∧ ts = as.map f := by
  induction ts with
  | nil => exact ⟨[], by simp, rfl⟩
  | cons t ts ih =>
    rw [List.forall_mem_cons] at h
    obtain ⟨a, ha, rfl⟩ := h.1
    obtain ⟨as, has, rfl⟩ := ih h.2
    exact ⟨a :: as, List.forall_mem_cons.mpr ⟨ha, has⟩, rfl⟩

theorem isValue_enclosed_items {first : Text} {others : List Text}
    (h : ∀ t ∈ first :: others, IsText t) :
    IsValue (enclosed layout level CodePoint.openBracket CodePoint.closeBracket first others) := by
  rw [List.forall_mem_cons] at h
  obtain ⟨parts, hne, hparts, heq⟩ := exists_joinWith_eq takesSpacing_isText layout (level + 1)
    (isSpacing_lineBreak layout (level + 1)) (isSpacing_lineBreak layout level) h.1 h.2
  obtain ⟨items, hitems, rfl⟩ := exists_map_eq hparts
  have hvalue := IsValue.list (by simpa using hne) hitems
  rw [← heq] at hvalue
  simpa [enclosed] using hvalue

theorem isValue_enclosed_members {first : Text} {others : List Text}
    (h : ∀ t ∈ first :: others, IsMember t) :
    IsValue (enclosed layout level CodePoint.openBrace CodePoint.closeBrace first others) := by
  rw [List.forall_mem_cons] at h
  obtain ⟨parts, hne, hparts, heq⟩ := exists_joinWith_eq takesSpacing_isMember layout (level + 1)
    (isSpacing_lineBreak layout (level + 1)) (isSpacing_lineBreak layout level) h.1 h.2
  obtain ⟨members, hmembers, rfl⟩ := exists_map_eq hparts
  have hvalue := IsValue.object (by simpa using hne) (fun m hm ↦ (hmembers m hm).1)
    fun m hm ↦ (hmembers m hm).2
  rw [← heq] at hvalue
  simpa [enclosed] using hvalue

theorem isNumber_integerText {n : Int} {t : Text} (h : Value.integerText n = .ok t) :
    IsNumber t := by
  obtain ⟨-, rfl⟩ := integerText_eq_ok_iff.mp h
  rw [← Numeral.text_ofNat]
  exact isNumber_of_numeral _ _

theorem isNumber_written {x : Float} (h : Binary.isFinite x = true) :
    IsNumber (written numberFormat x) := by
  cases hx : Binary.ofFloat x with
  | nan | infinite =>
    rw [Binary.isFinite, hx] at h
    cases h
  | finite negative m e =>
    obtain ⟨n, hn, -⟩ := @written_finite numberFormat rfl x negative m e hx
    rw [hn]
    exact isNumber_of_numeral negative n

/-- The words of a value whose doubles are finite are in the grammar. -/
theorem isValue_of_prints {j : Json} {t : Text} (hj : j.IsFinite) (h : Prints layout level j t) :
    IsValue t := by
  induction j using induction generalizing level t with
  | null =>
    cases h
    exact .word (w := "null") (by decide)
  | bool b =>
    cases h
    cases b with
    | false => exact .word (w := "false") (by decide)
    | true => exact .word (w := "true") (by decide)
  | int n => exact .number (isNumber_integerText h)
  | float x =>
    cases h
    exact .number (isNumber_written (isFinite_float.mp hj))
  | text s =>
    cases h
    exact .string (isString_stringText s)
  | list items ih =>
    rw [isFinite_list] at hj
    cases items with
    | nil =>
      cases h
      exact .emptyList isSpacing_nil
    | cons item items =>
      obtain ⟨first, others, hparts, rfl⟩ := printAt_list_eq_ok h
      refine isValue_enclosed_items fun u hu ↦ ?_
      obtain ⟨j, hmem, hprints⟩ := exists_mem_of_forall₂ hparts.flip hu
      exact isText_of_isValue (ih j hmem (hj j hmem) hprints)
  | object members ih =>
    rw [isFinite_object] at hj
    cases members with
    | nil =>
      cases h
      exact .emptyObject isSpacing_nil
    | cons m members =>
      obtain ⟨first, others, hparts, rfl⟩ := printAt_object_eq_ok h
      refine isValue_enclosed_members fun u hu ↦ ?_
      obtain ⟨m, hmem, v, hv, rfl⟩ := exists_mem_of_forall₂ hparts.flip hu
      exact isMember_of_isValue m.1 (ih m hmem (hj m hmem) hv)

end Printed

end MessageExtraction.Json
