import MessageExtraction.Proofs.Json.Encoding
import MessageExtraction.Proofs.Text.Digits
import MessageExtraction.Proofs.Text.Utf8
import MessageExtraction.Proofs.Tree.Places
import MessageExtraction.Tree.Literal

/-!
String literals of escapes. A character that is spelled by one escape is read back; one that is spelled by
the escapes of its two surrogates is read as these, which are no text that has bytes.
-/

namespace MessageExtraction

namespace Text

variable {ds : Text} {n c : Nat}

/-- The escape of a code unit. -/
def unitEscape (ds : Text) : Text := CodePoint.backslash :: CodePoint.letterU :: ds

/-- The escape of a code point. -/
def bracedEscape (ds : Text) : Text :=
  CodePoint.backslash :: CodePoint.letterU :: CodePoint.openBrace :: (ds ++ [CodePoint.closeBrace])

/-- Four hexadecimal digits that spell a code unit. -/
def SpellsUnit (ds : Text) (n : Nat) : Prop := ds.length = 4 ∧ SpellsIn 16 ds n

/-- The first and the second surrogate of a character beyond the first `0x10000`. -/
def highSurrogate (c : Nat) : Nat := 0xD800 + (c - 0x10000) / 0x400

def lowSurrogate (c : Nat) : Nat := 0xDC00 + (c - 0x10000) % 0x400

/-- The escapes that spell a character: its one code unit, its two, or itself in braces. -/
inductive EscapesPoint : Nat → List Text → Prop
  | unit {c : Nat} {ds : Text} : SpellsUnit ds c → EscapesPoint c [unitEscape ds]
  | pair {c : Nat} {high low : Text} : 0x10000 ≤ c → SpellsUnit high (highSurrogate c) →
      SpellsUnit low (lowSurrogate c) → EscapesPoint c [unitEscape high, unitEscape low]
  | braced {c : Nat} {ds : Text} : SpellsIn 16 ds c → EscapesPoint c [bracedEscape ds]

theorem codePointDigits?_bracedEscape (h : ds ≠ []) : codePointDigits? (bracedEscape ds) = some ds := by
  obtain ⟨a, rfl⟩ | ⟨a, b, rfl⟩ | ⟨a, b, d, more, rfl⟩ :
      (∃ a, ds = [a]) ∨ (∃ a b, ds = [a, b]) ∨ ∃ a b d more, ds = a :: b :: d :: more := by
    match ds, h with
    | [a], _ => exact .inl ⟨a, rfl⟩
    | [a, b], _ => exact .inr (.inl ⟨a, b, rfl⟩)
    | a :: b :: d :: more, _ => exact .inr (.inr ⟨a, b, d, more, rfl⟩)
  · rfl
  · rfl
  · simp [bracedEscape, codePointDigits?]

theorem codePointDigits?_unitEscape (h : SpellsUnit ds n) : codePointDigits? (unitEscape ds) = some ds := by
  obtain ⟨hlength, hspells⟩ := h
  obtain ⟨a, b, d, e, rfl⟩ := List.length_eq_four.mp hlength
  have hdigits := positional?_of_spellsIn readsBase_hexValue? hspells
  have ha : a ≠ CodePoint.openBrace := by
    rintro rfl
    cases hdigits
  rw [unitEscape, codePointDigits?, if_neg (fun h ↦ ha h.1)]

theorem decodeEscape_of_digits {t : Text} (hdigits : codePointDigits? t = some ds)
    (h : SpellsIn 16 ds n) (hn : n ≤ 0x10FFFF) : decodeEscape t = .ok [n] := by
  unfold decodeEscape
  rw [hdigits, Option.bind_some, positional?_of_spellsIn readsBase_hexValue? h]
  simp only
  rw [codePointOf, if_neg (by omega), if_neg (by omega)]

theorem SpellsUnit.lt (h : SpellsUnit ds n) : n < 0x10000 := by
  obtain ⟨hlength, hspells⟩ := h
  have hlt := positional?_lt readsBase_hexValue?.lt_base (positional?_of_spellsIn readsBase_hexValue? hspells)
  rwa [hlength] at hlt

theorem decodeEscape_unitEscape (h : SpellsUnit ds n) : decodeEscape (unitEscape ds) = .ok [n] :=
  decodeEscape_of_digits (codePointDigits?_unitEscape h) h.2 (by have := h.lt; omega)

theorem decodeEscape_bracedEscape (h : SpellsIn 16 ds n) (hn : n ≤ 0x10FFFF) :
    decodeEscape (bracedEscape ds) = .ok [n] :=
  decodeEscape_of_digits (codePointDigits?_bracedEscape h.ne_nil) h hn

/-- What the escapes of a character stand for: the character, or its two surrogates. -/
theorem EscapesPoint.decoded {group : List Text} (h : EscapesPoint c group) (hc : c ≤ 0x10FFFF) :
    group.length = 1 ∧ group.mapM decodeEscape = .ok [[c]] ∨
      group.length ≠ 1 ∧ 0x10000 ≤ c ∧
        group.mapM decodeEscape = .ok [[highSurrogate c], [lowSurrogate c]] := by
  cases h with
  | unit hunit =>
    refine .inl ⟨rfl, ?_⟩
    rw [List.mapM_cons, decodeEscape_unitEscape hunit]
    rfl
  | pair hge hhigh hlow =>
    refine .inr ⟨by simp, hge, ?_⟩
    rw [List.mapM_cons, List.mapM_cons, decodeEscape_unitEscape hhigh, decodeEscape_unitEscape hlow]
    rfl
  | braced hds =>
    refine .inl ⟨rfl, ?_⟩
    rw [List.mapM_cons, decodeEscape_bracedEscape hds hc]
    rfl

theorem not_isScalar_highSurrogate (hge : 0x10000 ≤ c) (hc : c ≤ 0x10FFFF) :
    ¬CodePoint.IsScalar (highSurrogate c) := by
  rw [CodePoint.IsScalar, highSurrogate]
  omega

/-- The escapes of a text stand for the text, and for one that has bytes, exactly when no character is
spelled by its two surrogates. -/
theorem exists_mapM_decodeEscape {t : Text} {groups : List (List Text)} (ht : t.IsEncodable)
    (h : List.Forall₂ EscapesPoint t groups) : ∃ pieces, groups.flatten.mapM decodeEscape = .ok pieces ∧
      (pieces.flatten = t ↔ ∀ group ∈ groups, group.length = 1) ∧
      (IsEncodable pieces.flatten ↔ ∀ group ∈ groups, group.length = 1) := by
  induction h with
  | nil => exact ⟨[], rfl, by simp, by simp⟩
  | @cons c group t groups hgroup _ ih =>
    obtain ⟨hc, ht⟩ := isEncodable_cons.mp ht
    have hle : c ≤ 0x10FFFF := Nat.le_of_lt_succ hc.1
    obtain ⟨pieces, hpieces, hvalue, hbytes⟩ := ih ht
    rw [List.flatten_cons, List.mapM_append, hpieces, List.forall_mem_cons]
    obtain ⟨hone, hdecoded⟩ | ⟨htwo, hge, hdecoded⟩ := hgroup.decoded hle
    · refine ⟨[c] :: pieces, by rw [hdecoded]; rfl, ?_, ?_⟩
      · rw [List.flatten_cons, List.singleton_append, List.cons_inj_right, hvalue]
        exact (and_iff_right hone).symm
      · rw [List.flatten_cons, List.singleton_append, isEncodable_cons, hbytes]
        exact and_congr_left fun _ ↦ iff_of_true hc hone
    · have hfalse : ¬(group.length = 1 ∧ ∀ group ∈ groups, group.length = 1) := fun h ↦ htwo h.1
      refine ⟨[highSurrogate c] :: [lowSurrogate c] :: pieces, by rw [hdecoded]; rfl, ?_, ?_⟩
      · refine iff_of_false (fun h ↦ ?_) hfalse
        have hhead : highSurrogate c = c := (List.cons.inj h).1
        rw [highSurrogate] at hhead
        omega
      · refine iff_of_false (fun h ↦ ?_) hfalse
        exact not_isScalar_highSurrogate hge hle (isEncodable_cons.mp h).1

end Text

namespace Source

variable {s : Source} {p : Place}

def isQuote (c : Place) : Bool := c.kind == "\"" || c.kind == "'"

/-- A literal whose children between its quotes are escapes with the given texts. -/
def SpellsEscapes (s : Source) (p : Place) (escapes : List Text) : Prop :=
  List.Forall₂ (fun c t ↦ c.kind = "escape_sequence" ∧ Utf8.encode? t = some (s.bytesOf c))
    (p.children.filter (!isQuote ·)) escapes

theorem stringPiece_escape {c : Place} {t : Text} (hkind : c.kind = "escape_sequence")
    (ht : Utf8.encode? t = some (s.bytesOf c)) : s.stringPiece false c = Text.decodeEscape t := by
  have htext : s.textOf c = .ok t :=
    (mapError_eq_ok_iff _).mpr (Utf8.decode_eq_ok_iff.mpr ht)
  rw [stringPiece, htext, hkind, if_neg (by decide)]
  rfl

theorem mapM_stringPiece {children : List Place} {escapes pieces : List Text}
    (h : List.Forall₂ (fun c t ↦ c.kind = "escape_sequence" ∧ Utf8.encode? t = some (s.bytesOf c))
      (children.filter (!isQuote ·)) escapes)
    (hpieces : escapes.mapM Text.decodeEscape = .ok pieces) :
    ∃ all, children.mapM (s.stringPiece false) = .ok all ∧ all.flatten = pieces.flatten := by
  induction children generalizing escapes pieces with
  | nil =>
    cases h
    obtain rfl := pure_eq_ok.mp hpieces
    exact ⟨[], rfl, rfl⟩
  | cons c children ih =>
    rw [List.mapM_cons]
    cases hquote : isQuote c with
    | true =>
      rw [List.filter_cons_of_neg (by simp [hquote])] at h
      obtain ⟨all, hall, hflatten⟩ := ih h hpieces
      have hpiece : s.stringPiece false c = .ok [] := by
        rw [stringPiece, if_pos (by simpa [isQuote] using hquote)]
      exact ⟨[] :: all, by rw [hpiece, hall]; rfl, hflatten⟩
    | false =>
      rw [List.filter_cons_of_pos (by simp [hquote])] at h
      obtain ⟨t, escapes, ⟨hkind, ht⟩, hrest, rfl⟩ := List.forall₂_cons_left_iff.mp h
      rw [List.mapM_cons] at hpieces
      obtain ⟨piece, hpiece, hpieces⟩ := bind_eq_ok.mp hpieces
      obtain ⟨pieces, hrest', hpieces⟩ := bind_eq_ok.mp hpieces
      obtain rfl := pure_eq_ok.mp hpieces
      obtain ⟨all, hall, hflatten⟩ := ih hrest hrest'
      refine ⟨piece :: all, ?_, ?_⟩
      · rw [stringPiece_escape hkind ht, hpiece, hall]
        rfl
      · rw [List.flatten_cons, List.flatten_cons, hflatten]

/-- A string literal that spells a text by escapes, one character by one or by two of them, has a value.
It is the text, and it has bytes, exactly when no character is spelled by two. -/
theorem stringValue_escapes_iff {t : Text} {groups : List (List Text)}
    (hattribute : p.parent?.any (·.kind == "jsx_attribute") = false) (ht : t.IsEncodable)
    (hgroups : List.Forall₂ Text.EscapesPoint t groups) (hp : s.SpellsEscapes p groups.flatten) :
    ∃ value, s.stringValue p = .ok value ∧
      (value = t ↔ ∀ group ∈ groups, group.length = 1) ∧
      ((Utf8.encode? value).isSome ↔ ∀ group ∈ groups, group.length = 1) := by
  obtain ⟨pieces, hpieces, hvalue, hbytes⟩ := Text.exists_mapM_decodeEscape ht hgroups
  obtain ⟨all, hall, hflatten⟩ := mapM_stringPiece hp hpieces
  refine ⟨pieces.flatten, ?_, hvalue, Text.encode?_isSome_iff.trans hbytes⟩
  rw [stringValue, hattribute, hall]
  exact congrArg Except.ok hflatten

/-- A statement that is one literal of two escapes, the first of which is as long as given. -/
def twoEscapes (text : Text) (length : Nat) : Source :=
  let stop := text.length
  let literal : Node := ⟨"string", true, 0, stop, [], [.token "'" 0 1,
    .leaf "escape_sequence" 1 (1 + length),
    .leaf "escape_sequence" (1 + length) (stop - 1), .token "'" (stop - 1) stop]⟩
  { filename := "a.js"
    path := "a.js"
    bytes := (Utf8.encode? text).getD []
    tree := ⟨"program", true, 0, stop, [], [⟨"expression_statement", true, 0, stop, [], [literal]⟩]⟩
    hasErrors := false }

/-- The first thing in the first statement. -/
def literalOf (s : Source) : Place := (s.root.children.headD default).children.headD default

/-- One code unit by four digits, and a character of two in braces. -/
def mixedEscapes : Source := twoEscapes "'\\u00E9\\u\x7b01f600\x7d'" 6

theorem mixedEscapes_value :
    let groups : List (List Text) := [["\\u00E9"], ["\\u\x7b01f600\x7d"]]
    (mixedEscapes.literalOf.parent?.any (·.kind == "jsx_attribute") = false ∧
      Text.IsEncodable [0xE9, 0x1F600] ∧ List.Forall₂ Text.EscapesPoint [0xE9, 0x1F600] groups ∧
      mixedEscapes.SpellsEscapes mixedEscapes.literalOf groups.flatten) ∧
    mixedEscapes.stringValue mixedEscapes.literalOf = .ok [0xE9, 0x1F600] := by
  intro groups
  have ht : Text.IsEncodable [0xE9, 0x1F600] := by
    rw [Text.IsEncodable]
    decide
  have hunit : Text.EscapesPoint 0xE9 ["\\u00E9"] :=
    .unit (show Text.SpellsUnit "00E9" 0xE9 from ⟨rfl, 2, rfl⟩)
  have hbraced : Text.EscapesPoint 0x1F600 ["\\u\x7b01f600\x7d"] :=
    .braced (show Text.SpellsIn 16 "01f600" 0x1F600 from ⟨1, rfl⟩)
  have hgroups : List.Forall₂ Text.EscapesPoint [0xE9, 0x1F600] groups := .cons hunit (.cons hbraced .nil)
  have hp : mixedEscapes.SpellsEscapes mixedEscapes.literalOf groups.flatten :=
    .cons ⟨rfl, by decide⟩ (.cons ⟨rfl, by decide⟩ .nil)
  obtain ⟨value, hvalue, hiff, -⟩ := stringValue_escapes_iff rfl ht hgroups hp
  refine ⟨⟨rfl, ht, hgroups, hp⟩, ?_⟩
  rw [hvalue, hiff.mpr (by decide)]

/-- A character by the escapes of its two surrogates. -/
def pairedEscapes : Source := twoEscapes "'\\ud83d\\ude00'" 6

theorem pairedEscapes_not_joined :
    pairedEscapes.literalOf.parent?.any (·.kind == "jsx_attribute") = false ∧
    Text.EscapesPoint 0x1F600 ["\\ud83d", "\\ude00"] ∧
    pairedEscapes.SpellsEscapes pairedEscapes.literalOf ["\\ud83d", "\\ude00"] ∧
    pairedEscapes.stringValue pairedEscapes.literalOf = .ok [0xD83D, 0xDE00] ∧
    pairedEscapes.stringValue pairedEscapes.literalOf ≠ .ok [0x1F600] ∧
    Utf8.encode? [0xD83D, 0xDE00] = none := by
  have hpoint : Text.EscapesPoint 0x1F600 ["\\ud83d", "\\ude00"] :=
    .pair (by decide) (show Text.SpellsUnit "d83d" 0xD83D from ⟨rfl, 0, rfl⟩)
      (show Text.SpellsUnit "de00" 0xDE00 from ⟨rfl, 0, rfl⟩)
  have hp : pairedEscapes.SpellsEscapes pairedEscapes.literalOf ["\\ud83d", "\\ude00"] :=
    .cons ⟨rfl, by decide⟩ (.cons ⟨rfl, by decide⟩ .nil)
  have hvalue : pairedEscapes.stringValue pairedEscapes.literalOf = .ok [0xD83D, 0xDE00] := by cbv
  refine ⟨rfl, hpoint, hp, hvalue, ?_, by decide⟩
  rw [hvalue]
  decide

end Source

end MessageExtraction
