import MessageExtraction.Json.Printer
import MessageExtraction.Proofs.Json.Data
import MessageExtraction.Proofs.Result

/-!
The scalars in a value, and what can be put into words: a value whose integers all have few enough
digits. Nothing else in a value keeps it from being written.
-/

namespace MessageExtraction.Json

mutual

/-- The values without parts in a value, in order. -/
def scalars : Json → List Json
  | .list items => itemScalars items
  | .object members => memberScalars members
  | j => [j]

def itemScalars : List Json → List Json
  | [] => []
  | j :: rest => j.scalars ++ itemScalars rest

def memberScalars : List (Text × Json) → List Json
  | [] => []
  | (_, j) :: rest => j.scalars ++ memberScalars rest

end

theorem itemScalars_eq (items : List Json) : itemScalars items = items.flatMap scalars := by
  induction items with
  | nil => rfl
  | cons j items ih => rw [itemScalars, ih, List.flatMap_cons]

theorem memberScalars_eq (members : List (Text × Json)) :
    memberScalars members = members.flatMap fun m ↦ m.2.scalars := by
  induction members with
  | nil => rfl
  | cons m members ih => rw [memberScalars, ih, List.flatMap_cons]

def integers (j : Json) : List Int :=
  j.scalars.filterMap fun | .int n => some n | _ => none

def floats (j : Json) : List Float :=
  j.scalars.filterMap fun | .float x => some x | _ => none

theorem forall_mem_integers_list {P : Int → Prop} {items : List Json} :
    (∀ n ∈ (list items).integers, P n) ↔ ∀ j ∈ items, ∀ n ∈ j.integers, P n := by
  rw [integers, scalars, itemScalars_eq, List.filterMap_flatMap, List.forall_mem_flatMap]
  rfl

theorem forall_mem_integers_object {P : Int → Prop} {members : List (Text × Json)} :
    (∀ n ∈ (object members).integers, P n) ↔ ∀ m ∈ members, ∀ n ∈ m.2.integers, P n := by
  rw [integers, scalars, memberScalars_eq, List.filterMap_flatMap, List.forall_mem_flatMap]
  rfl

/-- A value whose doubles are all finite. -/
def IsFinite (j : Json) : Prop := ∀ x ∈ j.floats, Binary.isFinite x = true

theorem isFinite_list {items : List Json} :
    (list items).IsFinite ↔ ∀ j ∈ items, j.IsFinite := by
  rw [IsFinite, floats, scalars, itemScalars_eq, List.filterMap_flatMap, List.forall_mem_flatMap]
  rfl

theorem isFinite_object {members : List (Text × Json)} :
    (object members).IsFinite ↔ ∀ m ∈ members, m.2.IsFinite := by
  rw [IsFinite, floats, scalars, memberScalars_eq, List.filterMap_flatMap, List.forall_mem_flatMap]
  rfl

theorem isFinite_float {x : Float} : (float x).IsFinite ↔ Binary.isFinite x = true :=
  List.forall_mem_singleton

theorem isFinite_of_no_floats {j : Json} (h : j.floats = []) : j.IsFinite := by
  rw [IsFinite, h]
  simp

/-- An integer that is not too long to be written. -/
def IsWritable (n : Int) : Prop := (Text.ofNat n.natAbs).length ≤ Text.digitLimit

instance : DecidablePred IsWritable := fun _ ↦ inferInstanceAs (Decidable (_ ≤ _))

theorem integerText_eq_ok_iff {n : Int} {t : Text} :
    Value.integerText n = .ok t ↔ IsWritable n ∧
      t = (if decide (n < 0) then [CodePoint.hyphen] else []) ++ Text.ofNat n.natAbs := by
  rw [Value.integerText, IsWritable]
  split
  · rename_i hlength
    exact iff_of_false (by simp) fun h ↦ absurd h.1 (Nat.not_le.mpr hlength)
  · rename_i hlength
    rw [and_iff_right (Nat.not_lt.mp hlength), Except.ok.injEq, eq_comm]
    by_cases hn : n < 0 <;> simp [hn]

/-- Two computations come to a result together iff each does. -/
theorem exists_both_iff {ε α β γ : Type} {x : Except ε α} {y : Except ε β} {f : α → β → γ} :
    (∃ c, (do let a ← x; let b ← y; return f a b) = .ok c) ↔ (∃ a, x = .ok a) ∧ ∃ b, y = .ok b := by
  constructor
  · rintro ⟨c, h⟩
    obtain ⟨a, ha, h⟩ := bind_eq_ok.mp h
    obtain ⟨b, hb, -⟩ := bind_eq_ok.mp h
    exact ⟨⟨a, ha⟩, b, hb⟩
  · rintro ⟨⟨a, ha⟩, b, hb⟩
    rw [ha, ok_bind, hb, ok_bind]
    exact ⟨_, rfl⟩

variable {layout : Layout} {level : Nat}

def Writes (layout : Layout) (level : Nat) (j : Json) : Prop := ∃ t, printAt layout level j = .ok t

theorem exists_printItems_iff {items : List Json} :
    (∃ t, printItems layout level items = .ok t) ↔ ∀ j ∈ items, Writes layout level j := by
  induction items with
  | nil => simp [printItems]
  | cons j items ih =>
    rw [List.forall_mem_cons, ← ih, printItems]
    exact exists_both_iff

theorem exists_printMembers_iff {members : List (Text × Json)} :
    (∃ t, printMembers layout level members = .ok t) ↔ ∀ m ∈ members, Writes layout level m.2 := by
  induction members with
  | nil => simp [printMembers]
  | cons m members ih =>
    rw [List.forall_mem_cons, ← ih, printMembers]
    exact exists_both_iff

theorem writes_list {items : List Json} :
    Writes layout level (list items) ↔ ∀ j ∈ items, Writes layout (level + 1) j := by
  cases items with
  | nil => exact iff_of_true ⟨_, rfl⟩ (by simp)
  | cons j items =>
    rw [List.forall_mem_cons, ← exists_printItems_iff, Writes, printAt]
    exact exists_both_iff

theorem writes_object {members : List (Text × Json)} :
    Writes layout level (object members) ↔ ∀ m ∈ members, Writes layout (level + 1) m.2 := by
  cases members with
  | nil => exact iff_of_true ⟨_, rfl⟩ (by simp)
  | cons m members =>
    rw [List.forall_mem_cons, ← exists_printMembers_iff, Writes, printAt]
    exact exists_both_iff

/-- A value can be put into words iff none of its integers is too long. -/
theorem writes_iff {j : Json} : Writes layout level j ↔ ∀ n ∈ j.integers, IsWritable n := by
  induction j using induction generalizing level with
  | null | bool | float | text => exact iff_of_true ⟨_, rfl⟩ (by simp [integers, scalars])
  | int n =>
    refine .trans ?_ List.forall_mem_singleton.symm
    exact ⟨fun ⟨t, ht⟩ ↦ (integerText_eq_ok_iff.mp ht).1, fun h ↦
      ⟨_, integerText_eq_ok_iff.mpr ⟨h, rfl⟩⟩⟩
  | list items ih =>
    rw [writes_list, forall_mem_integers_list]
    exact forall₂_congr fun j hj ↦ ih j hj
  | object members ih =>
    rw [writes_object, forall_mem_integers_object]
    exact forall₂_congr fun m hm ↦ ih m hm

end MessageExtraction.Json
