import Mathlib.Data.List.Basic
import MessageExtraction.Json.Basic

/-!
Values that are data: every number in them is one, and no object has two members of one name. Induction
over a value goes from its items and members to the whole.
-/

namespace MessageExtraction.Json

@[elab_as_elim]
theorem induction {P : Json → Prop} (null : P .null) (bool : ∀ b, P (.bool b))
    (int : ∀ n, P (.int n)) (float : ∀ x, P (.float x)) (text : ∀ t, P (.text t))
    (list : ∀ items, (∀ j ∈ items, P j) → P (.list items))
    (object : ∀ members, (∀ m ∈ members, P m.2) → P (.object members)) (j : Json) : P j := by
  refine @Json.rec P (fun items ↦ ∀ j ∈ items, P j) (fun members ↦ ∀ m ∈ members, P m.2)
    (fun m ↦ P m.2) null bool int float text list object ?_ ?_ ?_ ?_ ?_ j
  · simp
  · intro j items hj hitems
    exact List.forall_mem_cons.mpr ⟨hj, hitems⟩
  · simp
  · intro m members hm hmembers
    exact List.forall_mem_cons.mpr ⟨hm, hmembers⟩
  · intro name j hj
    exact hj

mutual

/-- Whether no number in a value is `NaN` and no object in it has two members of one name. -/
def isData : Json → Bool
  | .float x => !Binary.isNaN x
  | .list items => areData items
  | .object members => decide (members.map (·.1)).Nodup && membersAreData members
  | _ => true

def areData : List Json → Bool
  | [] => true
  | j :: rest => j.isData && areData rest

def membersAreData : List (Text × Json) → Bool
  | [] => true
  | (_, j) :: rest => j.isData && membersAreData rest

end

theorem isData_list {items : List Json} :
    (list items).isData = true ↔ ∀ j ∈ items, j.isData = true := by
  rw [isData]
  induction items with
  | nil => simp [areData]
  | cons j items ih => rw [areData, Bool.and_eq_true, ih, List.forall_mem_cons]

theorem isData_object {members : List (Text × Json)} :
    (object members).isData = true ↔
      (members.map (·.1)).Nodup ∧ ∀ m ∈ members, m.2.isData = true := by
  rw [isData, Bool.and_eq_true, decide_eq_true_eq]
  refine and_congr_right' ?_
  induction members with
  | nil => simp [membersAreData]
  | cons m members ih => rw [membersAreData, Bool.and_eq_true, ih, List.forall_mem_cons]

/-- Where no name is there twice, a member is found under its name. -/
theorem lookup_eq_some_iff_mem {members : List (Text × Json)} {name : Text} {j : Json}
    (h : (members.map (·.1)).Nodup) : members.lookup name = some j ↔ (name, j) ∈ members := by
  induction members with
  | nil => simp
  | cons m members ih =>
    obtain ⟨n, i⟩ := m
    rw [List.map_cons, List.nodup_cons] at h
    rw [List.lookup_cons, List.mem_cons, Prod.mk.injEq]
    by_cases hn : name = n
    · subst hn
      have hnot : (name, j) ∉ members := fun hj ↦ h.1 (List.mem_map.mpr ⟨(name, j), hj, rfl⟩)
      simp only [beq_self_eq_true, Option.some.injEq, true_and, hnot, or_false, eq_comm]
    · simp only [beq_eq_false_iff_ne.mpr hn, hn, false_and, false_or, ih h.2]

theorem mem_of_lookup {members : List (Text × Json)} {name : Text} {j : Json}
    (h : members.lookup name = some j) : (name, j) ∈ members := by
  induction members with
  | nil => cases h
  | cons m members ih =>
    rw [List.lookup_cons] at h
    rw [List.mem_cons]
    split at h
    · rename_i hname
      obtain rfl := Option.some.inj h
      exact .inl (by rw [beq_iff_eq.mp hname])
    · exact .inr (ih h)

theorem toValues_eq (items : List Json) : toValues items = items.map toValue := by
  induction items with
  | nil => rfl
  | cons j items ih => rw [toValues, ih, List.map_cons]

theorem toMembers_eq (members : List (Text × Json)) :
    toMembers members = members.map fun m ↦ (m.1, m.2.toValue) := by
  induction members with
  | nil => rfl
  | cons m members ih => rw [toMembers, ih, List.map_cons]

theorem toJsonItems?_of_forall {items : List Json} (h : ∀ j ∈ items, j.toValue.toJson? = some j) :
    Value.toJsonItems? (toValues items) = some items := by
  induction items with
  | nil => rfl
  | cons j items ih =>
    rw [List.forall_mem_cons] at h
    rw [toValues, Value.toJsonItems?, h.1, ih h.2]
    rfl

theorem toJsonMembers?_of_forall {members : List (Text × Json)}
    (h : ∀ m ∈ members, m.2.toValue.toJson? = some m.2) :
    Value.toJsonMembers? (toMembers members) = some members := by
  induction members with
  | nil => rfl
  | cons m members ih =>
    rw [List.forall_mem_cons] at h
    rw [toMembers, Value.toJsonMembers?, h.1, ih h.2]
    rfl

/-- A value that was made of data is stored as that data. -/
theorem toJson?_toValue (j : Json) : j.toValue.toJson? = some j := by
  induction j using induction with
  | null | bool | int | float | text => rfl
  | list items ih =>
    rw [toValue, Value.toJson?, toJsonItems?_of_forall ih]
    rfl
  | object members ih =>
    rw [toValue, Value.toJson?, toJsonMembers?_of_forall ih]
    rfl

end MessageExtraction.Json
