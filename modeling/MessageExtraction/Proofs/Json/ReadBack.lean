import MessageExtraction.Proofs.Json.Tokens

/-!
What is put into words is read back, whatever follows it and whatever the layout. The fuel of the
reader is the length of the text, which falls with every step.
-/

namespace MessageExtraction.Json

open Number Text

variable {negative : Bool} {rest : Text}

/-- A text that begins with a character that is neither spacing nor closes a list. -/
def BeginsValue (t : Text) : Prop :=
  ∃ c ∈ t.head?, isSpacing c = false ∧ c ≠ CodePoint.closeBracket

theorem beginsValue_cons {c : CodePoint} (h : isSpacing c = false ∧ c ≠ CodePoint.closeBracket)
    (t : Text) : BeginsValue (c :: t) :=
  ⟨c, rfl, h⟩

theorem BeginsValue.append {t : Text} (h : BeginsValue t) (u : Text) : BeginsValue (t ++ u) := by
  obtain ⟨c, hc, h⟩ := h
  obtain ⟨t, rfl⟩ := List.head?_eq_some_iff.mp hc
  exact ⟨c, rfl, h⟩

theorem BeginsValue.skipSpacing_eq {t : Text} (h : BeginsValue t) : skipSpacing t = t := by
  obtain ⟨c, hc, h, -⟩ := h
  obtain ⟨t, rfl⟩ := List.head?_eq_some_iff.mp hc
  exact skipSpacing_of_not h t

theorem beginsValue_signed {t : Text} (ht : ∃ c ∈ t.head?, CodePoint.isDigit c = true) :
    BeginsValue ((if negative then [CodePoint.hyphen] else []) ++ t) := by
  cases negative with
  | true => exact beginsValue_cons (by decide) _
  | false =>
    obtain ⟨c, hc, hdigit⟩ := ht
    obtain ⟨t, rfl⟩ := List.head?_eq_some_iff.mp hc
    have hspacing : isSpacing c = false := by
      simp only [isSpacing, Bool.or_eq_false_iff, beq_eq_false_iff_ne]
      refine ⟨⟨⟨?_, ?_⟩, ?_⟩, ?_⟩ <;> rintro rfl <;> cases hdigit
    refine beginsValue_cons ⟨hspacing, ?_⟩ t
    rintro rfl
    cases hdigit

theorem beginsValue_stringText (t : Text) : BeginsValue (stringText t) :=
  beginsValue_cons (by decide) _

theorem beginsValue_written (x : Float) : BeginsValue (written numberFormat x) := by
  cases h : Binary.ofFloat x with
  | nan =>
    rw [written, h]
    exact beginsValue_cons (by decide) _
  | infinite negative =>
    rw [written, h]
    cases negative <;> exact beginsValue_cons (by decide) _
  | finite negative m e =>
    obtain ⟨n, hn, -⟩ := @written_finite numberFormat rfl x negative m e h
    rw [hn]
    have := exists_digit_text n []
    rw [List.append_nil] at this
    exact beginsValue_signed this

theorem beginsValue_printAt {layout : Layout} {level : Nat} {j : Json} {t : Text}
    (h : printAt layout level j = .ok t) : BeginsValue t := by
  cases j with
  | null =>
    cases h
    exact beginsValue_cons (by decide) _
  | bool b =>
    cases h
    cases b <;> exact beginsValue_cons (by decide) _
  | int n =>
    obtain ⟨-, rfl⟩ := integerText_eq_ok_iff.mp h
    have := exists_digit_append (isDigits_ofNat n.natAbs) []
    rw [List.append_nil] at this
    exact beginsValue_signed this
  | float x =>
    cases h
    exact beginsValue_written x
  | text s =>
    cases h
    exact beginsValue_cons (by decide) _
  | list items =>
    cases items with
    | nil =>
      cases h
      exact beginsValue_cons (by decide) _
    | cons item rest =>
      rw [printAt] at h
      obtain ⟨first, -, h⟩ := bind_eq_ok.mp h
      obtain ⟨others, -, h⟩ := bind_eq_ok.mp h
      rw [← pure_eq_ok.mp h]
      exact beginsValue_cons (by decide) _
  | object members =>
    cases members with
    | nil =>
      cases h
      exact beginsValue_cons (by decide) _
    | cons member rest =>
      rw [printAt] at h
      obtain ⟨first, -, h⟩ := bind_eq_ok.mp h
      obtain ⟨others, -, h⟩ := bind_eq_ok.mp h
      rw [← pure_eq_ok.mp h]
      exact beginsValue_cons (by decide) _

/-- A value is read back from what it is put into words as, whatever the layout. -/
def ReadsBack (j : Json) : Prop :=
  ∀ (layout : Layout) (level : Nat) (t rest : Text) (fuel : Nat), printAt layout level j = .ok t →
    EndsNumber rest → t.length ≤ fuel → readValue fuel (t ++ rest) = .ok (j, rest)

variable {layout : Layout} {level : Nat}

theorem endsNumber_printItems {items : List Json} {t : Text}
    (h : printItems layout level items = .ok t) (hrest : EndsNumber rest) : EndsNumber (t ++ rest) := by
  cases items with
  | nil =>
    cases h
    exact hrest
  | cons item items =>
    rw [printItems] at h
    obtain ⟨first, -, h⟩ := bind_eq_ok.mp h
    obtain ⟨others, -, h⟩ := bind_eq_ok.mp h
    obtain ⟨spacing, -, hbreak⟩ := exists_itemBreak_eq layout level
    rw [← pure_eq_ok.mp h, hbreak]
    exact endsNumber_cons (by decide)

/-- The items of a list are read up to its closing bracket. -/
theorem readItems_printItems {item : Json} {items : List Json} {first others close : Text}
    (hread : ∀ j ∈ item :: items, j.ReadsBack) (hfirst : printAt layout level item = .ok first)
    (hothers : printItems layout level items = .ok others) (hclose : EndsNumber close)
    (hbracket : skipSpacing close = CodePoint.closeBracket :: rest) {fuel : Nat}
    (hfuel : first.length + others.length < fuel) :
    readItems fuel (first ++ (others ++ close)) = .ok (item :: items, rest) := by
  -- the induction is on the items after the first, each with the comma before it
  induction items generalizing item first others fuel with
  | nil =>
    obtain ⟨fuel, rfl⟩ := Nat.exists_eq_succ_of_ne_zero (by omega : fuel ≠ 0)
    cases hothers
    have hvalue := hread item List.mem_cons_self layout level first close fuel hfirst hclose
      (by omega)
    rw [List.nil_append, readItems, hvalue, ok_bind]
    simp only [hbracket]
    rfl
  | cons next items ih =>
    obtain ⟨fuel, rfl⟩ := Nat.exists_eq_succ_of_ne_zero (by omega : fuel ≠ 0)
    have hvalue := hread item List.mem_cons_self layout level first (others ++ close) fuel hfirst
      (endsNumber_printItems hothers hclose) (by omega)
    rw [printItems] at hothers
    obtain ⟨second, hsecond, hothers⟩ := bind_eq_ok.mp hothers
    obtain ⟨others', hothers', hothers⟩ := bind_eq_ok.mp hothers
    obtain ⟨spacing, hspacing, hbreak⟩ := exists_itemBreak_eq layout level
    have heq := pure_eq_ok.mp hothers
    rw [hbreak, List.cons_append, List.cons_append, List.append_assoc] at heq
    have hlength := congrArg List.length heq
    rw [List.length_cons, List.length_append, List.length_append] at hlength
    have hrec := ih (fun j hj ↦ hread j (List.mem_cons_of_mem _ hj)) hsecond hothers'
      (by omega : second.length + others'.length < fuel)
    have hbegin := ((beginsValue_printAt hsecond).append (others' ++ close)).skipSpacing_eq
    rw [readItems, hvalue, ok_bind, ← heq, List.cons_append, List.append_assoc, List.append_assoc]
    simp only [skipSpacing_comma, skipSpacing_append hspacing, hbegin, hrec]
    rfl

theorem endsNumber_printMembers {members : List (Text × Json)} {t : Text}
    (h : printMembers layout level members = .ok t) (hrest : EndsNumber rest) :
    EndsNumber (t ++ rest) := by
  cases members with
  | nil =>
    cases h
    exact hrest
  | cons member members =>
    rw [printMembers] at h
    obtain ⟨first, -, h⟩ := bind_eq_ok.mp h
    obtain ⟨others, -, h⟩ := bind_eq_ok.mp h
    obtain ⟨spacing, -, hbreak⟩ := exists_itemBreak_eq layout level
    rw [← pure_eq_ok.mp h, hbreak]
    exact endsNumber_cons (by decide)

theorem insertMember_of_not_mem {name : Text} {members : List (Text × Json)} (j : Json)
    (h : name ∉ members.map (·.1)) : insertMember name j members = members ++ [(name, j)] := by
  induction members with
  | nil => rfl
  | cons m members ih =>
    rw [List.map_cons, List.mem_cons, not_or] at h
    rw [insertMember, if_neg (Ne.symm h.1), ih h.2, List.cons_append]

theorem not_mem_of_nodup_append {before after : List (Text × Json)} {name : Text} {j : Json}
    (h : ((before ++ (name, j) :: after).map (·.1)).Nodup) : name ∉ before.map (·.1) := by
  rw [List.map_append, List.map_cons, List.nodup_append] at h
  exact fun hmem ↦ h.2.2 name hmem name List.mem_cons_self rfl

/-- One member of an object is read: its name, the colon and its value. -/
theorem readMembers_member {before : List (Text × Json)} {name : Text} {j : Json}
    {first after : Text} (hread : j.ReadsBack) (hname : name ∉ before.map (·.1))
    (hfirst : printAt layout level j = .ok first) (hafter : EndsNumber after) {fuel : Nat}
    (hfuel : (stringText name).length + first.length ≤ fuel) {c : CodePoint} {t : Text}
    (hnext : skipSpacing after = c :: t) :
    readMembers (fuel + 1) before
      (stringText name ++ CodePoint.colon :: CodePoint.space :: (first ++ after)) =
      if c = CodePoint.closeBrace then .ok (before ++ [(name, j)], t)
      else if c = CodePoint.comma then readMembers fuel (before ++ [(name, j)]) (skipSpacing t)
      else .error .malformed := by
  have hlength : (stringText name).length = (name.flatMap escapedPoint).length + 2 := by
    simp [stringText]
  have hstring := @readString_flatMap
    (CodePoint.colon :: CodePoint.space :: (first ++ after)) name fuel (by omega)
  have htext : stringText name ++ CodePoint.colon :: CodePoint.space :: (first ++ after) =
      CodePoint.doubleQuote :: (name.flatMap escapedPoint ++ CodePoint.doubleQuote ::
        CodePoint.colon :: CodePoint.space :: (first ++ after)) := by
    simp [stringText]
  have hcolon : skipSpacing (CodePoint.colon :: CodePoint.space :: (first ++ after)) =
      CodePoint.colon :: CodePoint.space :: (first ++ after) := rfl
  have hspace : skipSpacing (CodePoint.space :: (first ++ after)) = first ++ after :=
    ((beginsValue_printAt hfirst).append after).skipSpacing_eq
  have hvalue := hread layout level first after fuel hfirst hafter (by omega)
  rw [htext, readMembers, hstring, ok_bind]
  simp only [hcolon, hspace, hvalue, ok_bind, hnext, insertMember_of_not_mem j hname]
  split
  · rename_i heq
    obtain ⟨rfl, rfl⟩ := List.cons.inj heq
    rfl
  · rename_i heq
    obtain ⟨rfl, rfl⟩ := List.cons.inj heq
    rfl
  · rename_i hbrace hcomma
    rw [if_neg (fun hc ↦ hbrace t (by rw [hc])), if_neg (fun hc ↦ hcomma t (by rw [hc]))]
    rfl

/-- The members of an object are read up to its closing brace. -/
theorem readMembers_printMembers {before members : List (Text × Json)} {name : Text} {j : Json}
    {first others close : Text} (hread : ∀ m ∈ (name, j) :: members, m.2.ReadsBack)
    (hnodup : ((before ++ (name, j) :: members).map (·.1)).Nodup)
    (hfirst : printAt layout level j = .ok first)
    (hothers : printMembers layout level members = .ok others) (hclose : EndsNumber close)
    (hbrace : skipSpacing close = CodePoint.closeBrace :: rest) {fuel : Nat}
    (hfuel : (stringText name).length + first.length + others.length < fuel) :
    readMembers fuel before
      (stringText name ++ CodePoint.colon :: CodePoint.space :: (first ++ (others ++ close))) =
      .ok (before ++ (name, j) :: members, rest) := by
  -- as before, but the members that are read already go along in `before`
  induction members generalizing before name j first others fuel with
  | nil =>
    obtain ⟨fuel, rfl⟩ := Nat.exists_eq_succ_of_ne_zero (by omega : fuel ≠ 0)
    cases hothers
    rw [List.nil_append, readMembers_member (hread _ List.mem_cons_self)
      (not_mem_of_nodup_append hnodup) hfirst hclose (by omega) hbrace]
    rfl
  | cons next members ih =>
    obtain ⟨fuel, rfl⟩ := Nat.exists_eq_succ_of_ne_zero (by omega : fuel ≠ 0)
    obtain ⟨name', j'⟩ := next
    have hends := endsNumber_printMembers hothers hclose
    rw [printMembers] at hothers
    obtain ⟨second, hsecond, hothers⟩ := bind_eq_ok.mp hothers
    obtain ⟨others', hothers', hothers⟩ := bind_eq_ok.mp hothers
    obtain ⟨spacing, hspacing, hbreak⟩ := exists_itemBreak_eq layout level
    have heq : CodePoint.comma :: (spacing ++ (stringText name' ++ CodePoint.colon ::
        CodePoint.space :: (second ++ others'))) = others := by
      rw [← pure_eq_ok.mp hothers, hbreak]
      simp
    have hlength := congrArg List.length heq
    simp only [List.length_cons, List.length_append] at hlength
    have hnext : skipSpacing (others ++ close) = CodePoint.comma :: (spacing ++ (stringText name' ++
        CodePoint.colon :: CodePoint.space :: (second ++ (others' ++ close)))) := by
      rw [← heq, List.cons_append, skipSpacing_comma]
      simp
    have hnodup' : (((before ++ [(name, j)]) ++ (name', j') :: members).map (·.1)).Nodup := by
      simpa using hnodup
    have hrec := ih (fun m hm ↦ hread m (List.mem_cons_of_mem _ hm)) hnodup' hsecond hothers'
      (by omega : (stringText name').length + second.length + others'.length < fuel)
    rw [readMembers_member (hread _ List.mem_cons_self) (not_mem_of_nodup_append hnodup) hfirst
      hends (by omega) hnext, if_neg (by decide), if_pos rfl, skipSpacing_append hspacing,
      ((beginsValue_stringText name').append _).skipSpacing_eq]
    rw [List.append_assoc] at hrec
    exact hrec

theorem readsBack_list {items : List Json} (h : ∀ j ∈ items, j.ReadsBack) :
    (list items).ReadsBack := by
  intro layout level t rest fuel hprint hrest hfuel
  cases items with
  | nil =>
    cases hprint
    obtain ⟨fuel, rfl⟩ := Nat.exists_eq_succ_of_ne_zero (by simp at hfuel; omega : fuel ≠ 0)
    rfl
  | cons item items =>
    rw [printAt] at hprint
    obtain ⟨first, hfirst, hprint⟩ := bind_eq_ok.mp hprint
    obtain ⟨others, hothers, hprint⟩ := bind_eq_ok.mp hprint
    have ht := pure_eq_ok.mp hprint
    have hlength := congrArg List.length ht
    simp only [List.length_cons, List.length_append, List.length_nil] at hlength
    obtain ⟨fuel, rfl⟩ := Nat.exists_eq_succ_of_ne_zero (by omega : fuel ≠ 0)
    have hclose : EndsNumber (lineBreak layout level ++ CodePoint.closeBracket :: rest) :=
      endsNumber_lineBreak_append layout level (endsNumber_cons (by decide))
    have hbracket : skipSpacing (lineBreak layout level ++ CodePoint.closeBracket :: rest) =
        CodePoint.closeBracket :: rest := by
      rw [skipSpacing_lineBreak]
      rfl
    have hitems := readItems_printItems h hfirst hothers hclose hbracket
      (by omega : first.length + others.length < fuel)
    have htext : t ++ rest = CodePoint.openBracket :: (lineBreak layout (level + 1) ++
        (first ++ (others ++ (lineBreak layout level ++ CodePoint.closeBracket :: rest)))) := by
      rw [← ht]
      simp
    have hbegins := (beginsValue_printAt hfirst).append
      (others ++ (lineBreak layout level ++ CodePoint.closeBracket :: rest))
    rw [htext, readValue, skipSpacing_lineBreak, hbegins.skipSpacing_eq]
    split
    · rename_i heq
      obtain ⟨c, hc, -, hne⟩ := hbegins
      rw [heq] at hc
      exact absurd (Option.some.inj hc).symm hne
    · rw [hitems]
      rfl

theorem readsBack_object {members : List (Text × Json)} (hnodup : (members.map (·.1)).Nodup)
    (h : ∀ m ∈ members, m.2.ReadsBack) : (object members).ReadsBack := by
  intro layout level t rest fuel hprint hrest hfuel
  cases members with
  | nil =>
    cases hprint
    obtain ⟨fuel, rfl⟩ := Nat.exists_eq_succ_of_ne_zero (by simp at hfuel; omega : fuel ≠ 0)
    rfl
  | cons member members =>
    obtain ⟨name, j⟩ := member
    rw [printAt] at hprint
    obtain ⟨first, hfirst, hprint⟩ := bind_eq_ok.mp hprint
    obtain ⟨others, hothers, hprint⟩ := bind_eq_ok.mp hprint
    have ht := pure_eq_ok.mp hprint
    have hlength := congrArg List.length ht
    simp only [List.length_cons, List.length_append, List.length_nil] at hlength
    obtain ⟨fuel, rfl⟩ := Nat.exists_eq_succ_of_ne_zero (by omega : fuel ≠ 0)
    have hclose : EndsNumber (lineBreak layout level ++ CodePoint.closeBrace :: rest) :=
      endsNumber_lineBreak_append layout level (endsNumber_cons (by decide))
    have hbrace : skipSpacing (lineBreak layout level ++ CodePoint.closeBrace :: rest) =
        CodePoint.closeBrace :: rest := by
      rw [skipSpacing_lineBreak]
      rfl
    have hnodup' : ((([] : List (Text × Json)) ++ (name, j) :: members).map (·.1)).Nodup := hnodup
    have hmembers := readMembers_printMembers h hnodup' hfirst hothers hclose hbrace
      (by omega : (stringText name).length + first.length + others.length < fuel)
    have htext : t ++ rest = CodePoint.openBrace :: (lineBreak layout (level + 1) ++
        (stringText name ++ CodePoint.colon :: CodePoint.space ::
          (first ++ (others ++ (lineBreak layout level ++ CodePoint.closeBrace :: rest))))) := by
      rw [← ht]
      simp
    rw [htext, readValue, skipSpacing_lineBreak,
      ((beginsValue_stringText name).append _).skipSpacing_eq]
    split
    · rename_i heq
      cases heq
    · rw [hmembers]
      rfl

/-- A value without parts is read back if it is with any fuel. -/
theorem readsBack_scalar {j : Json} (h : ∀ (layout : Layout) (level : Nat) (t rest : Text)
    (fuel : Nat), printAt layout level j = .ok t → EndsNumber rest → t.length ≤ fuel + 1 →
      readValue (fuel + 1) (t ++ rest) = .ok (j, rest)) : j.ReadsBack := by
  intro layout level t rest fuel hprint hrest hfuel
  obtain ⟨c, hc, -⟩ := beginsValue_printAt hprint
  obtain ⟨t, rfl⟩ := List.head?_eq_some_iff.mp hc
  obtain ⟨fuel, rfl⟩ := Nat.exists_eq_succ_of_ne_zero (by simp at hfuel; omega : fuel ≠ 0)
  exact h layout level _ rest fuel hprint hrest hfuel

/-- Data is read back from what it is put into words as. -/
theorem readsBack_of_isData {j : Json} (h : j.isData = true) : j.ReadsBack := by
  induction j using induction with
  | null =>
    refine readsBack_scalar fun layout level t rest fuel hprint _ _ ↦ ?_
    cases hprint
    rfl
  | bool b =>
    refine readsBack_scalar fun layout level t rest fuel hprint _ _ ↦ ?_
    cases hprint
    cases b <;> rfl
  | int n =>
    exact readsBack_scalar fun layout level t rest fuel hprint hrest _ ↦
      readValue_integerText hprint hrest
  | float x =>
    refine readsBack_scalar fun layout level t rest fuel hprint hrest _ ↦ ?_
    cases hprint
    exact readValue_written (by simpa [isData] using h) hrest
  | text s =>
    refine readsBack_scalar fun layout level t rest fuel hprint _ hfuel ↦ ?_
    cases hprint
    have hlength : (stringText s).length = (s.flatMap escapedPoint).length + 2 := by
      simp [stringText]
    have htext : stringText s ++ rest = CodePoint.doubleQuote ::
        (s.flatMap escapedPoint ++ CodePoint.doubleQuote :: rest) := by
      simp [stringText]
    rw [htext, readValue, readString_flatMap s (by omega)]
    rfl
  | list items ih =>
    rw [isData_list] at h
    exact readsBack_list fun j hj ↦ ih j hj (h j hj)
  | object members ih =>
    rw [isData_object] at h
    exact readsBack_object h.1 fun m hm ↦ ih m hm (h.2 m hm)

/-- Data that can be put into words is read from them. -/
theorem read_of_print {layout : Layout} {j : Json} {t : Text} (hj : j.isData = true)
    (h : j.print layout = .ok t) : read t = .ok j := by
  have hread := readsBack_of_isData hj layout 0 t [] (t.length + 1) h endsNumber_nil (by omega)
  rw [List.append_nil] at hread
  rw [read, (beginsValue_printAt h).skipSpacing_eq, hread]
  rfl

end MessageExtraction.Json
