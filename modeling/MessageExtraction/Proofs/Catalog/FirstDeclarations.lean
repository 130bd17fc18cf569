import MessageExtraction.Proofs.Catalog.Put
import MessageExtraction.Proofs.Number.Doubles

/-!
A catalog as the record of a history: after declarations in some order it holds, for each id, what
the first of them said, in the order in which the ids first appeared.
-/

namespace MessageExtraction

namespace MessageId

/-- Sameness goes from an id over another to a third, also between whole numbers and doubles. -/
theorem same_trans {i j k : MessageId} (hij : i.same j = true) (hjk : j.same k = true) :
    i.same k = true := by
  cases i <;> cases j <;> cases k <;>
    simp only [same, toValue, Value.same, Value.sameNumber, Binary.isInt, beq_iff_eq,
      Bool.false_eq_true] at hij hjk ⊢
  case text.text.text => exact hij.trans hjk
  case int.int.int => exact hij.trans hjk
  case int.int.float => rw [hij, hjk]
  case float.int.int => rw [hij, hjk]
  case int.float.int => exact Option.some.inj (hij.symm.trans hjk)
  case int.float.float => rw [← Binary.toInt?_eq_of_beq hjk, hij]
  case float.float.int => rw [Binary.toInt?_eq_of_beq hij, hjk]
  case float.int.float => exact Binary.beq_of_toInt?_eq hij hjk
  case float.float.float => exact BEq.trans hij hjk

end MessageId

/-- A message as a node declares it: what is said, the node that says it, and the node that holds its
description, if that is of no use in the source. -/
structure Declaration where
  descriptor : Descriptor
  place : Place
  description : Option Place

namespace Declaration

def id? (d : Declaration) : Option MessageId := MessageId.ofValue? d.descriptor.id

/-- Whether the first declaration has an id and the second has the same. -/
def sameId (d e : Declaration) : Bool :=
  match d.id?, e.id? with
  | some i, some j => i.same j
  | _, _ => false

theorem sameId_trans {d e f : Declaration} (hde : d.sameId e = true) (hef : e.sameId f = true) :
    d.sameId f = true := by
  simp only [sameId] at hde hef ⊢
  split at hde
  · rename_i i j hi hj
    rw [hj] at hef
    cases hf : f.id? with
    | none => simp [hf] at hef
    | some k =>
      simp only [hf] at hef
      simp only [hi]
      exact MessageId.same_trans hde hef
  · cases hde

/-- The declarations of which none before has the same id. -/
def firsts : List Declaration → List Declaration
  | [] => []
  | d :: ds => d :: (firsts ds).filter fun e ↦ !d.sameId e

theorem firsts_append (ds : List Declaration) (d : Declaration) :
    firsts (ds ++ [d]) = firsts ds ++ if ds.any (·.sameId d) then [] else [d] := by
  induction ds with
  | nil => rfl
  | cons e ds ih =>
    rw [List.cons_append, firsts, firsts, ih, List.filter_append, List.any_cons, List.cons_append]
    cases he : e.sameId d <;> cases ha : ds.any (·.sameId d) <;> simp [he]

/-- If a declaration has the id of one before, it has the id of a first one. -/
theorem any_firsts (ds : List Declaration) (d : Declaration) :
    (firsts ds).any (·.sameId d) = ds.any (·.sameId d) := by
  induction ds with
  | nil => rfl
  | cons e ds ih =>
    rw [firsts, List.any_cons, List.any_cons, ← ih]
    cases he : e.sameId d with
    | true => rfl
    | false =>
      -- a declaration that is left out for having the id of `e` cannot have that of `d`
      simp only [Bool.false_or, List.any_filter]
      congr 1
      funext f
      cases hf : f.sameId d with
      | false => simp
      | true =>
        cases hef : e.sameId f with
        | false => rfl
        | true =>
          rw [sameId_trans hef hf] at he
          cases he

/-- The message that a declaration is stored as. -/
structure IsStoredAs (s : Source) (o : Options) (d : Declaration) (m : Message) : Prop where
  id : d.id? = some m.id
  description : d.descriptor.description.toJson? = some m.description
  defaultMessage : d.descriptor.defaultMessage = Catalog.textValue m.defaultMessage
  location : (m.file, m.start, m.stop) =
    if o.keepLocation then
      (some s.path, some (s.startOf d.place).toPoint, some (s.stopOf d.place).toPoint)
    else (none, none, none)

/-- The entry of a catalog that a declaration becomes. -/
def IsEntry (s : Source) (o : Options) (d : Declaration) (e : Catalog.Entry) : Prop :=
  d.IsStoredAs s o e.message ∧ e.origin = s.startOf d.place

end Declaration

namespace Catalog

open Declaration

variable {s : Source} {o : Options} {c c' : Catalog} {ds : List Declaration} {d : Declaration}

/-- A catalog holds what the first declarations of a history said, in their order. -/
def Holds (s : Source) (o : Options) (c : Catalog) (ds : List Declaration) : Prop :=
  List.Forall₂ (IsEntry s o) (firsts ds) c.entries

theorem holds_empty (s : Source) (o : Options) : empty.Holds s o [] := .nil

theorem isStoredAs_of_store {id : MessageId} {m : Message} (hid : d.id? = some id)
    (h : store s o id d.descriptor d.place = .ok m) : d.IsStoredAs s o m := by
  rw [store] at h
  obtain ⟨j, hj, h⟩ := bind_eq_ok.mp h
  obtain ⟨t, ht, h⟩ := bind_eq_ok.mp h
  rw [storedJson_eq_ok_iff] at hj
  rw [storedText_eq_ok_iff] at ht
  split at h
  · rename_i hloc
    obtain rfl := pure_eq_ok.mp h
    exact ⟨hid, hj, ht, by rw [if_pos hloc]⟩
  · rename_i hloc
    obtain rfl := pure_eq_ok.mp h
    exact ⟨hid, hj, ht, by rw [if_neg hloc]⟩

theorem textValue_injective {t t' : Option Text} (h : textValue t = textValue t') : t = t' := by
  cases t <;> cases t' <;> simp_all [textValue]

/-- A declaration is stored in one way. -/
theorem eq_of_isStoredAs {m m' : Message} (h : d.IsStoredAs s o m) (h' : d.IsStoredAs s o m') :
    m = m' := by
  have hid := h.id.symm.trans h'.id
  have hdescription := h.description.symm.trans h'.description
  have htext := textValue_injective (h.defaultMessage.symm.trans h'.defaultMessage)
  have hlocation := h.location.trans h'.location.symm
  cases m
  cases m'
  simp_all

theorem eq_of_isEntry {e e' : Entry} (h : d.IsEntry s o e) (h' : d.IsEntry s o e') : e = e' := by
  have hm := eq_of_isStoredAs h.1 h'.1
  have horigin := h.2.trans h'.2.symm
  cases e
  cases e'
  simp_all

/-- The history tells the catalog. -/
theorem Holds.unique (h : c.Holds s o ds) (h' : c'.Holds s o ds) : c = c' := by
  have hunique : Relator.RightUnique (IsEntry s o) := fun _ _ _ ↦ eq_of_isEntry
  have hentries : c.entries = c'.entries := hunique.forall₂ h h'
  cases c
  cases c'
  exact congrArg Catalog.mk hentries

theorem find?_isSome_of_entries {id : MessageId} (hid : d.id? = some id) {es : List Entry}
    (h : List.Forall₂ (IsEntry s o) ds es) :
    (es.find? fun e ↦ e.message.id.toValue.same id.toValue).isSome = ds.any (·.sameId d) := by
  induction h with
  | nil => rfl
  | @cons f e ds es hf _ ih =>
    have hsame : f.sameId d = e.message.id.toValue.same id.toValue := by
      rw [sameId, hf.1.id, hid]
      rfl
    rw [List.any_cons, hsame, List.find?_cons, ← ih]
    cases e.message.id.toValue.same id.toValue <;> rfl

/-- A catalog has an entry of an id iff a declaration of its history has that id. -/
theorem Holds.find?_isSome (h : c.Holds s o ds) {id : MessageId} (hid : d.id? = some id) :
    (c.find? id.toValue).isSome = ds.any (·.sameId d) := by
  rw [← any_firsts]
  exact find?_isSome_of_entries hid h

/-- A declaration that is accepted becomes part of the history. -/
theorem Holds.put {m : Message} (h : c.Holds s o ds)
    (hput : c.put s o d.descriptor d.place = .ok m c') : c'.Holds s o (ds ++ [d]) := by
  obtain ⟨id, hid, -, hcases⟩ := put_cases hput
  have hfind := h.find?_isSome hid
  rw [Holds, firsts_append, ← hfind]
  obtain ⟨e, he, -, -, rfl⟩ | ⟨he, hm, rfl⟩ := hcases
  · rw [he, Option.isSome_some, if_pos rfl, List.append_nil]
    exact h
  · rw [he, Option.isSome_none, if_neg Bool.false_ne_true]
    exact List.rel_append h (.cons ⟨isStoredAs_of_store hid hm, rfl⟩ .nil)

theorem Holds.messages (h : c.Holds s o ds) :
    List.Forall₂ (IsStoredAs s o) (firsts ds) c.messages := by
  rw [Catalog.messages, List.forall₂_map_right_iff]
  exact h.imp fun _ _ he ↦ he.1

end Catalog

end MessageExtraction
