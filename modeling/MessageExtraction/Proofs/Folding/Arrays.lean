import MessageExtraction.Json.Basic
import MessageExtraction.Proofs.Folding.Exactness

/-!
Array literals and their slots. A comma closes a slot, whether an element stands in it or not, and an
element after the last comma fills a slot of its own. A fold takes the elements one after the other,
so an item stands where its slot does iff every slot has an element.
-/

namespace MessageExtraction

open Folding

namespace Place

variable {p : Place}

/-- The slots of a row of children, each with the elements in it, when some elements have been met
since the last comma. -/
def slotsFrom (slot : List Place) : List Place → List (List Place)
  | [] => if slot.isEmpty then [] else [slot]
  | c :: rest =>
    if c.node.isNamed && c.kind != "comment" then slotsFrom (slot ++ [c]) rest
    else if c.kind = "," then slot :: slotsFrom [] rest
    else slotsFrom slot rest

def slots (p : Place) : List (List Place) := slotsFrom [] p.children

theorem flatten_slotsFrom (slot row : List Place) : (slotsFrom slot row).flatten =
    slot ++ row.filter fun c ↦ c.node.isNamed && c.kind != "comment" := by
  induction row generalizing slot with
  | nil =>
    cases slot with
    | nil => rfl
    | cons c slot => simp [slotsFrom]
  | cons c row ih =>
    rw [slotsFrom]
    split
    · rename_i hc
      rw [ih, List.filter_cons, if_pos hc, List.append_assoc, List.singleton_append]
    · rename_i hc
      rw [List.filter_cons, if_neg hc]
      split
      · rw [List.flatten_cons, ih, List.nil_append]
      · exact ih slot

theorem flatten_slots (p : Place) : p.slots.flatten = p.parts := flatten_slotsFrom [] p.children

theorem slots_eq_map {slots : List (List Place)} (h : ∀ slot ∈ slots, slot.length = 1) :
    slots = slots.flatten.map fun c ↦ [c] := by
  induction slots with
  | nil => rfl
  | cons slot slots ih =>
    rw [List.forall_mem_cons] at h
    obtain ⟨c, rfl⟩ := List.length_eq_one_iff.mp h.1
    simpa using ih h.2

theorem length_flatten_le {slots : List (List Place)} (hone : ∀ slot ∈ slots, slot.length ≤ 1) :
    slots.flatten.length ≤ slots.length := by
  induction slots with
  | nil => rfl
  | cons slot slots ih =>
    rw [List.forall_mem_cons] at hone
    have hle := ih hone.2
    have hslot := hone.1
    simp only [List.flatten_cons, List.length_append, List.length_cons]
    omega

theorem length_flatten_lt {slots : List (List Place)} (hone : ∀ slot ∈ slots, slot.length ≤ 1)
    (hhole : [] ∈ slots) : slots.flatten.length < slots.length := by
  obtain ⟨before, after, rfl⟩ := List.append_of_mem hhole
  have hbefore := length_flatten_le fun slot h ↦ hone slot (List.mem_append_left _ h)
  have hafter := length_flatten_le fun slot (h : slot ∈ after) ↦ hone slot (by simp [h])
  simp only [List.flatten_append, List.flatten_cons, List.nil_append, List.length_append,
    List.length_cons]
  omega

theorem length_eq_one {slots : List (List Place)} (hone : ∀ slot ∈ slots, slot.length ≤ 1)
    (hfilled : [] ∉ slots) {slot : List Place} (h : slot ∈ slots) : slot.length = 1 := by
  have hpos : 0 < slot.length := List.length_pos_iff.mpr fun hnil ↦ hfilled (hnil ▸ h)
  have hle := hone slot h
  omega

/-- What holds of the elements one by one holds of the slots one by one iff each has one element. -/
theorem forall₂_slots_iff {α : Type} {slots : List (List Place)} {vs : List α}
    {R : List Place → α → Prop} (hR : ∀ slot v, R slot v → slot.length ≤ 1)
    (h : List.Forall₂ (fun e v ↦ R [e] v) slots.flatten vs) :
    List.Forall₂ R slots vs ↔ ∀ slot ∈ slots, slot.length = 1 := by
  constructor
  -- There are as many items as elements, and with a hole there would be fewer than slots.
  · intro hall
    have hone : ∀ slot ∈ slots, slot.length ≤ 1 := by
      intro slot hslot
      obtain ⟨v, -, hv⟩ := exists_mem_of_forall₂ hall hslot
      exact hR slot v hv
    have hfilled : [] ∉ slots := by
      intro hhole
      have hlt := length_flatten_lt hone hhole
      rw [h.length_eq, hall.length_eq] at hlt
      exact Nat.lt_irrefl _ hlt
    exact fun slot ↦ length_eq_one hone hfilled
  · intro hone
    rw [slots_eq_map hone, List.forall₂_map_left_iff]
    exact h

end Place

namespace Source

open Place

variable {s : Source} {p : Place} {v : Value}

theorem foldWith_array_eq_ok {pending : List (List Nat)} (hk : p.kind = "array") :
    s.foldWith pending p = .ok v ↔ ∃ vs, v = .list vs ∧
      List.Forall₂ (fun e w ↦ e.kind ≠ "spread_element" ∧ s.foldWith pending e = .ok w) p.parts vs := by
  rw [foldWith, rule, if_neg (Judgement.not_isWrapper_of_kind hk rfl)]
  simp only [hk]
  rw [ofArray, bind_eq_ok]
  simp only [mapM_eq_ok, pure_eq_ok]
  rw [← map_val_partsOf]
  simp only [List.forall₂_map_left_iff]
  constructor
  · intro h
    obtain ⟨vs, hvs, hv⟩ := h
    refine ⟨vs, hv.symm, hvs.imp fun c w hc ↦ ?_⟩
    split at hc
    · cases hc
    · rename_i hne
      exact ⟨hne, hc⟩
  · intro h
    obtain ⟨vs, hv, hvs⟩ := h
    refine ⟨vs, hvs.imp fun c w hc ↦ ?_, hv.symm⟩
    rw [if_neg hc.1]
    exact hc.2

/-- The value of a slot; without an element that is undefined. -/
def slotValue (s : Source) : List Place → Outcome
  | [] => .ok .undefined
  | [e] => s.fold e
  | _ => .error .notConstant

theorem length_le_of_slotValue {slot : List Place} (h : s.slotValue slot = .ok v) :
    slot.length ≤ 1 := by
  match slot, h with
  | [], _ => exact Nat.zero_le 1
  | [_], _ => exact Nat.le_refl 1

theorem keptItems_eq_map (vs : List Value) : Value.keptItems vs = vs.map Value.kept := by
  induction vs with
  | nil => rw [Value.keptItems, List.map_nil]
  | cons v vs ih => rw [Value.keptItems, ih, List.map_cons]

/-- An array has the values of its elements, in order. Each is the value of its slot in the literal,
and is kept as that is kept in data, iff every slot has one element; where none has more, the array is
as long as the literal iff no slot is empty. -/
theorem array_fills_slots_iff (hk : p.kind = "array") (h : s.fold p = .ok v) : ∃ vs, v = .list vs ∧
    List.Forall₂ (fun e w ↦ s.fold e = .ok w) p.slots.flatten vs ∧
    (List.Forall₂ (fun slot w ↦ s.slotValue slot = .ok w) p.slots vs ↔
      ∀ slot ∈ p.slots, slot.length = 1) ∧
    (∃ ws, v.kept = .list ws ∧
      (List.Forall₂ (fun slot w ↦ (s.slotValue slot).map Value.kept = .ok w) p.slots ws ↔
        ∀ slot ∈ p.slots, slot.length = 1)) ∧
    ((∀ slot ∈ p.slots, slot.length ≤ 1) → (vs.length = p.slots.length ↔ [] ∉ p.slots)) := by
  obtain ⟨vs, rfl, hvs⟩ := (foldWith_array_eq_ok hk).mp h
  rw [← flatten_slots] at hvs
  have hitems : List.Forall₂ (fun e w ↦ s.fold e = .ok w) p.slots.flatten vs :=
    hvs.imp fun e w he ↦ he.2
  refine ⟨vs, rfl, hitems, forall₂_slots_iff (fun _ _ ↦ length_le_of_slotValue) hitems,
    ⟨Value.keptItems vs, by rw [Value.kept], ?_⟩, fun hone ↦ ?_⟩
  · apply forall₂_slots_iff
    · intro slot w hw
      obtain ⟨u, hu, -⟩ := map_eq_ok.mp hw
      exact length_le_of_slotValue hu
    · rw [keptItems_eq_map, List.forall₂_map_right_iff]
      refine hitems.imp fun e w he ↦ ?_
      rw [slotValue, he]
      rfl
  · rw [← hitems.length_eq]
    constructor
    · intro heq hhole
      exact absurd heq (Nat.ne_of_lt (length_flatten_lt hone hhole))
    · intro hfilled
      conv_rhs => rw [slots_eq_map fun slot ↦ length_eq_one hone hfilled]
      rw [List.length_map]

end Source

namespace ArrayLiteral

/-- The statement `[true, /* c */ null,];`. -/
def filled : Source where
  filename := "a.js"
  path := "a.js"
  bytes := (Utf8.encode? "[true, /* c */ null,];").getD []
  tree := ⟨"program", true, 0, 22, [],
    [⟨"expression_statement", true, 0, 22, [],
      [⟨"array", true, 0, 21, [],
        [.token "[" 0 1, .leaf "true" 1 5, .token "," 5 6, .leaf "comment" 7 14, .leaf "null" 15 19,
          .token "," 19 20, .token "]" 20 21]⟩,
        .token ";" 21 22]⟩]⟩
  hasErrors := false

/-- The statement `[true,,null];`. -/
def holed : Source where
  filename := "a.js"
  path := "a.js"
  bytes := (Utf8.encode? "[true,,null];").getD []
  tree := ⟨"program", true, 0, 13, [],
    [⟨"expression_statement", true, 0, 13, [],
      [⟨"array", true, 0, 12, [],
        [.token "[" 0 1, .leaf "true" 1 5, .token "," 5 6, .token "," 6 7, .leaf "null" 7 11,
          .token "]" 11 12]⟩,
        .token ";" 12 13]⟩]⟩
  hasErrors := false

def filledArray : Place := childAt (childAt filled.root 0) 0

def holedArray : Place := childAt (childAt holed.root 0) 0

theorem fold_array {s : Source} {p yes nothing : Place} (hk : p.kind = "array")
    (hparts : p.parts = [yes, nothing]) (hyes : yes.kind = "true") (hnothing : nothing.kind = "null") :
    s.fold p = .ok (.list [.bool true, .null]) := by
  apply (Source.foldWith_array_eq_ok hk).mpr
  refine ⟨_, rfl, ?_⟩
  rw [hparts]
  refine .cons ⟨by simp [hyes], ?_⟩ (.cons ⟨by simp [hnothing], ?_⟩ .nil)
  · exact Source.fold_literal (by simp [hyes])
  · exact Source.fold_literal (by simp [hnothing])

theorem slots_filledArray :
    filledArray.slots = [[childAt filledArray 1], [childAt filledArray 4]] := rfl

theorem slots_holedArray :
    holedArray.slots = [[childAt holedArray 1], [], [childAt holedArray 4]] := rfl

/-- Every slot has an element, with a comment in front of one and a comma after the last. -/
theorem filledArray_fills_slots :
    filledArray.kind = "array" ∧ filled.fold filledArray = .ok (.list [.bool true, .null]) ∧
    List.Forall₂ (fun slot v ↦ filled.slotValue slot = .ok v) filledArray.slots
      [.bool true, .null] := by
  have hfold : filled.fold filledArray = .ok (.list [.bool true, .null]) :=
    fold_array rfl rfl rfl rfl
  obtain ⟨vs, hvs, -, hslots, -⟩ := Source.array_fills_slots_iff rfl hfold
  cases hvs
  refine ⟨rfl, hfold, hslots.mpr ?_⟩
  rw [slots_filledArray]
  simp

/-- Two items come of a literal with three slots, and the last is not in its place. -/
theorem holedArray_shifts :
    holedArray.kind = "array" ∧ holed.fold holedArray = .ok (.list [.bool true, .null]) ∧
    holedArray.slots.map holed.slotValue = [.ok (.bool true), .ok .undefined, .ok .null] := by
  have hyes : holed.fold (childAt holedArray 1) = .ok (.bool true) := Source.fold_literal (.head _)
  have hnothing : holed.fold (childAt holedArray 4) = .ok .null :=
    Source.fold_literal (.tail _ (.tail _ (.head _)))
  refine ⟨rfl, fold_array rfl rfl rfl rfl, ?_⟩
  rw [slots_holedArray]
  simp only [List.map_cons, List.map_nil, Source.slotValue, hyes, hnothing]

end ArrayLiteral

end MessageExtraction
