import MessageExtraction.Proofs.Catalog.FirstDeclarations
import MessageExtraction.Proofs.Json.Data

/-!
Equality of data. Between values without `NaN` it is an equivalence, although whole numbers, doubles and
truth values count as equal when they are the same number, and objects whatever the order of their
members.
-/

namespace MessageExtraction

namespace Value

theorem sameItems_iff {xs ys : List Value} :
    sameItems xs ys = true ↔ List.Forall₂ (fun x y ↦ same x y = true) xs ys := by
  induction xs generalizing ys with
  | nil => cases ys <;> simp [sameItems]
  | cons x xs ih => cases ys <;> simp [sameItems, ih]

theorem sameMembers_iff {ms ns : List (Text × Value)} :
    sameMembers ms ns = true ↔
      ∀ m ∈ ms, ∃ w, ns.lookup m.1 = some w ∧ same m.2 w = true := by
  induction ms with
  | nil => simp [sameMembers]
  | cons m ms ih =>
    rw [sameMembers, Bool.and_eq_true, ih, List.forall_mem_cons]
    refine and_congr_left' ?_
    cases ns.lookup m.1 <;> simp

end Value

theorem MessageId.same_comm (i j : MessageId) : i.same j = j.same i := by
  cases i <;> cases j <;> first | rfl | exact BEq.comm

namespace Json

/-- Whether two pieces of data are equal as parts of a list or an object. -/
def same (j k : Json) : Bool := j.toValue.same k.toValue

theorem lookup_toMembers (members : List (Text × Json)) (name : Text) :
    (toMembers members).lookup name = (members.lookup name).map toValue := by
  induction members with
  | nil => rfl
  | cons m members ih =>
    rw [toMembers, List.lookup_cons, List.lookup_cons, ih]
    cases name == m.1 <;> rfl

theorem same_list {js ks : List Json} :
    (list js).same (list ks) = true ↔ List.Forall₂ (fun j k ↦ j.same k = true) js ks := by
  rw [same, toValue, toValue, Value.same, Value.sameItems_iff, toValues_eq, toValues_eq,
    List.forall₂_map_left_iff, List.forall₂_map_right_iff]
  rfl

theorem same_object {ms ns : List (Text × Json)} :
    (object ms).same (object ns) = true ↔ ms.length = ns.length ∧
      ∀ m ∈ ms, ∃ k, ns.lookup m.1 = some k ∧ m.2.same k = true := by
  rw [same, toValue, toValue, Value.same, Bool.and_eq_true, beq_iff_eq, Value.sameMembers_iff]
  simp only [toMembers_eq ms, List.length_map, List.forall_mem_map, lookup_toMembers,
    Option.map_eq_some_iff, exists_exists_and_eq_and, same]
  rw [toMembers_eq, List.length_map]

/-- A text or a number as an id; truth values count as the numbers that they are equal to. -/
def scalar? : Json → Option MessageId
  | .text t => some (.text t)
  | .bool b => some (.int (Value.ofBool b))
  | .int n => some (.int n)
  | .float x => some (.float x)
  | _ => none

theorem same_scalar {j k : Json} {a b : MessageId} (hj : j.scalar? = some a)
    (hk : k.scalar? = some b) : j.same k = a.same b := by
  cases j <;> cases hj <;> cases k <;> cases hk <;> try rfl
  case bool.refl.bool.refl b c => cases b <;> cases c <;> rfl
  case bool.refl.int.refl => exact BEq.comm

theorem scalar?_of_same {j k : Json} {a : MessageId} (h : j.same k = true)
    (hj : j.scalar? = some a) : ∃ b, k.scalar? = some b := by
  cases j <;> cases hj <;> cases k <;> first | exact ⟨_, rfl⟩ | cases h

theorem ne_nan_of_isData {x : Float} (h : (float x).isData = true) : x ≠ Float.nan := by
  rintro rfl
  have hnan : (float Float.nan).isData = false := by decide
  rw [hnan] at h
  cases h

theorem same_refl {j : Json} (h : j.isData = true) : j.same j = true := by
  induction j using induction with
  | null => rfl
  | bool b => cases b <;> rfl
  | int n => exact beq_self_eq_true n
  | float x => exact Float.beq_self_iff.mpr (ne_nan_of_isData h)
  | text t => exact beq_self_eq_true t
  | list items ih =>
    rw [isData_list] at h
    rw [same_list, List.forall₂_same]
    exact fun j hj ↦ ih j hj (h j hj)
  | object members ih =>
    rw [isData_object] at h
    rw [same_object]
    refine ⟨rfl, fun m hm ↦ ⟨m.2, ?_, ih m hm (h.2 m hm)⟩⟩
    exact (lookup_eq_some_iff_mem h.1).mpr hm

/-- Of two objects of as many members, if each member of the first has one of its name in the second,
then each of the second has one in the first. -/
theorem exists_mem_of_lookup {ms ns : List (Text × Json)} (hms : (ms.map (·.1)).Nodup)
    (hlength : ms.length = ns.length) (h : ∀ m ∈ ms, ∃ k, ns.lookup m.1 = some k) {n : Text × Json}
    (hn : n ∈ ns) : ∃ m ∈ ms, m.1 = n.1 := by
  have hsubset : ms.map (·.1) ⊆ ns.map (·.1) := by
    intro name hname
    obtain ⟨m, hm, rfl⟩ := List.mem_map.mp hname
    obtain ⟨k, hk⟩ := h m hm
    exact List.mem_map.mpr ⟨(m.1, k), mem_of_lookup hk, rfl⟩
  have hperm : (ms.map (·.1)).Perm (ns.map (·.1)) := by
    refine (hms.subperm hsubset).perm_of_length_le ?_
    rw [List.length_map, List.length_map, hlength]
  exact List.mem_map.mp (hperm.mem_iff.mpr (List.mem_map_of_mem hn))

theorem same_symm {j k : Json} (hj : j.isData = true) (hk : k.isData = true)
    (h : j.same k = true) : k.same j = true := by
  induction j using induction generalizing k with
  | null => cases k <;> first | rfl | cases h
  | bool | int | float | text =>
    obtain ⟨b, hb⟩ := scalar?_of_same h rfl
    rw [same_scalar rfl hb, MessageId.same_comm] at h
    exact (same_scalar hb rfl).trans h
  | list items ih =>
    cases k with
    | list items' =>
      rw [isData_list] at hj hk
      rw [same_list] at h ⊢
      refine (List.forall₂_iff_get.mpr ⟨h.length_eq.symm, fun i hi' hi ↦ ?_⟩)
      exact ih _ (List.get_mem _ _) (hj _ (List.get_mem _ _)) (hk _ (List.get_mem _ _))
        (h.get hi hi')
    | _ => cases h
  | object members ih =>
    cases k with
    | object members' =>
      rw [isData_object] at hj hk
      rw [same_object] at h ⊢
      refine ⟨h.1.symm, fun n hn ↦ ?_⟩
      obtain ⟨m, hm, hname⟩ := exists_mem_of_lookup hj.1 h.1
        (fun m hm ↦ (h.2 m hm).imp fun k hk ↦ hk.1) hn
      obtain ⟨i, hi, hsame⟩ := h.2 m hm
      have hfound : members'.lookup m.1 = some n.2 := by
        rw [hname]
        exact (lookup_eq_some_iff_mem hk.1).mpr hn
      obtain rfl := Option.some.inj (hi.symm.trans hfound)
      refine ⟨m.2, ?_, ih m hm (hj.2 m hm) (hk.2 n hn) hsame⟩
      rw [← hname]
      exact (lookup_eq_some_iff_mem hj.1).mpr hm
    | _ => cases h

/-- Equality goes from a value over another to a third. -/
theorem same_trans {i j k : Json} (hij : i.same j = true) (hjk : j.same k = true) :
    i.same k = true := by
  induction i using induction generalizing j k with
  | null =>
    cases j with
    | null => exact hjk
    | _ => cases hij
  | bool | int | float | text =>
    obtain ⟨b, hb⟩ := scalar?_of_same hij rfl
    obtain ⟨c, hc⟩ := scalar?_of_same hjk hb
    rw [same_scalar rfl hb] at hij
    rw [same_scalar hb hc] at hjk
    exact (same_scalar rfl hc).trans (MessageId.same_trans hij hjk)
  | list items ih =>
    cases j with
    | list items' =>
      cases k with
      | list items'' =>
        rw [same_list] at hij hjk ⊢
        refine List.forall₂_iff_get.mpr ⟨hij.length_eq.trans hjk.length_eq, fun n hn hn'' ↦ ?_⟩
        have hn' : n < items'.length := hij.length_eq ▸ hn
        exact ih _ (List.get_mem _ _) (hij.get hn hn') (hjk.get hn' hn'')
      | _ => cases hjk
    | _ => cases hij
  | object members ih =>
    cases j with
    | object members' =>
      cases k with
      | object members'' =>
        rw [same_object] at hij hjk ⊢
        refine ⟨hij.1.trans hjk.1, fun m hm ↦ ?_⟩
        obtain ⟨j, hj, hmj⟩ := hij.2 m hm
        obtain ⟨k, hk, hjk⟩ := hjk.2 (m.1, j) (mem_of_lookup hj)
        exact ⟨k, hk, ih m hm hmj hjk⟩
      | _ => cases hjk
    | _ => cases hij

theorem equal_toValue (j k : Json) : j.toValue.equal k.toValue = j.same k := by
  cases j <;> rfl

end Json

end MessageExtraction
