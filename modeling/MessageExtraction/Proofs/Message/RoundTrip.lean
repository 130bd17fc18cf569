import MessageExtraction.Message.Catalog
import MessageExtraction.Proofs.Catalog.Permutation
import MessageExtraction.Proofs.Json.ReadBack
import MessageExtraction.Proofs.Json.Scalars

/-!
Catalogs from their files. A message is read back from the object that it is written as, although
the fields that it does not have are left out, and so is a catalog from its text.
-/

namespace MessageExtraction

theorem Json.lookup_filter {members : List (Text × Json)} {p : Text × Json → Bool}
    (h : (members.map (·.1)).Nodup) (name : Text) :
    (members.filter p).lookup name = (members.lookup name).filter fun j ↦ p (name, j) := by
  induction members with
  | nil => rfl
  | cons m members ih =>
    obtain ⟨n, j⟩ := m
    rw [List.map_cons, List.nodup_cons] at h
    have hih := ih h.2
    by_cases hname : name = n
    · subst hname
      have hnone : members.lookup name = none := by
        cases hlookup : members.lookup name with
        | none => rfl
        | some k => exact absurd (List.mem_map.mpr ⟨(name, k), mem_of_lookup hlookup, rfl⟩) h.1
      rw [hnone] at hih
      cases hp : p (name, j) with
      | true => simp [hp, Option.filter_some]
      | false => simp [hp, hih, Option.filter_some]
    · have hne : (name == n) = false := beq_eq_false_iff_ne.mpr hname
      cases hp : p (n, j) with
      | true => simp [hp, List.lookup_cons, hne, hih]
      | false => simp [hp, List.lookup_cons, hne, hih]

namespace Message

open Validation

/-- A message without `NaN`. -/
structure IsData (m : Message) : Prop where
  id : m.id.toJson.isData = true
  description : m.description.isData = true

instance : DecidablePred IsData := fun m ↦
  decidable_of_iff (m.id.toJson.isData = true ∧ m.description.isData = true)
    ⟨fun h ↦ ⟨h.1, h.2⟩, fun h ↦ ⟨h.id, h.description⟩⟩

theorem nodup_toMembers (m : Message) : (m.toMembers.map (·.1)).Nodup := by
  have hnames : m.toMembers.map (·.1) =
      ["id", "description", "defaultMessage", "file", "start", "end"].map Text.ofString := rfl
  rw [hnames]
  decide

theorem checkId_toJson {i : MessageId} (h : i.toJson.isData = true) : checkId i.toJson = .ok i := by
  cases i with
  | nan =>
    have hnan : (MessageId.nan.toJson).isData = false := by decide
    rw [hnan] at h
    cases h
  | text | int | float => rfl

theorem checkPoint_toJson (p : Point) : checkPoint p.toJson = .ok p := rfl

/-- A member as it is found in the object of a message: not at all if it is null. -/
theorem lookup_toJson (m : Message) (name : Text) :
    (m.toMembers.filter fun (_, j) ↦ !j.isNull).lookup name =
      (m.toMembers.lookup name).filter fun j ↦ !j.isNull :=
  Json.lookup_filter m.nodup_toMembers name

/-- A field is read back if its value is, and if its default is what is left out. -/
theorem field_toJson {α : Type} {m : Message} (outerName name : String) {fallback a : α}
    {f : Json → Checked α} {j : Json} (hj : m.toMembers.lookup (Text.ofString outerName) = some j)
    (hname : name = outerName ∨ m.toMembers.lookup (Text.ofString name) = none)
    (hnull : j.isNull = true → fallback = a) (hf : j.isNull = false → f j = .ok a) :
    field (m.toMembers.filter fun (_, j) ↦ !j.isNull) outerName name fallback f = .ok a := by
  have hother : member? (m.toMembers.filter fun (_, j) ↦ !j.isNull) outerName name =
      (some j).filter fun j ↦ !j.isNull := by
    rw [member?, lookup_toJson, lookup_toJson, hj]
    obtain rfl | hname := hname
    · rw [hj, Option.or_self]
    · rw [hname, Option.filter_none, Option.or_none]
  rw [field, hother]
  cases hj : j.isNull with
  | true =>
    rw [Option.filter_some, if_neg (by simp [hj])]
    exact congrArg Except.ok (hnull hj)
  | false =>
    rw [Option.filter_some, if_pos (by simp [hj])]
    simp only [hf hj]
    rfl

/-- The field of an optional value is read back if the value is. -/
theorem optional_toJson {α : Type} {f : Json → Checked α} {g : α → Json}
    (hg : ∀ a, (g a).isNull = false) (hf : ∀ a, f (g a) = .ok a) (a : Option α) :
    ((a.elim .null g).isNull = true → none = a) ∧
      ((a.elim .null g).isNull = false → Validation.optional f (a.elim .null g) = .ok a) := by
  cases a with
  | none => exact ⟨fun _ ↦ rfl, fun h ↦ by cases h⟩
  | some a =>
    refine ⟨fun h ↦ ?_, fun _ ↦ ?_⟩
    · rw [Option.elim_some, hg] at h
      cases h
    · rw [Option.elim_some]
      have hne := hg a
      cases hj : g a with
      | null =>
        rw [hj] at hne
        cases hne
      | _ =>
        rw [← hj, Validation.optional, hf]
        · rfl
        · rw [hj]
          nofun

theorem isNull_toJson (i : MessageId) : i.toJson.isNull = false := by
  cases i <;> rfl

/-- A message is read back from the object that it is written as. -/
theorem ofJson_toJson {m : Message} (h : m.IsData) : ofJson m.toJson = .ok m := by
  have hid : required (m.toMembers.filter fun (_, j) ↦ !j.isNull) "id" checkId = .ok m.id := by
    have hlookup : m.toMembers.lookup (Text.ofString "id") = some m.id.toJson := rfl
    rw [required, lookup_toJson, hlookup, Option.filter_some, if_pos (by simp [isNull_toJson])]
    simp only [checkId_toJson h.id]
    rfl
  have hdescription : field (m.toMembers.filter fun (_, j) ↦ !j.isNull) "description" "description"
      .null .ok = .ok m.description := by
    refine field_toJson (j := m.description) _ _ rfl (.inl rfl) ?_ fun _ ↦ rfl
    intro hnull
    cases hj : m.description <;> first | rfl | (rw [hj] at hnull; cases hnull)
  have hdefault := optional_toJson (fun t : Text ↦ (rfl : (Json.text t).isNull = false))
    (fun t ↦ (rfl : text (.text t) = .ok t)) m.defaultMessage
  have hfile := optional_toJson (fun t : Text ↦ (rfl : (Json.text t).isNull = false))
    (fun t ↦ (rfl : text (.text t) = .ok t)) m.file
  have hstart := optional_toJson (fun p : Point ↦ (rfl : p.toJson.isNull = false)) checkPoint_toJson
    m.start
  have hstop := optional_toJson (fun p : Point ↦ (rfl : p.toJson.isNull = false)) checkPoint_toJson
    m.stop
  rw [ofJson, toJson, model, ofMembers, hid, hdescription,
    field_toJson "defaultMessage" _ rfl (.inr rfl) hdefault.1 hdefault.2,
    field_toJson "file" _ rfl (.inl rfl) hfile.1 hfile.2,
    field_toJson "start" _ rfl (.inl rfl) hstart.1 hstart.2,
    field_toJson "end" _ rfl (.inl rfl) hstop.1 hstop.2]
  rfl

theorem isData_toJson {m : Message} (h : m.IsData) : m.toJson.isData = true := by
  rw [toJson, Json.isData_object]
  refine ⟨(m.nodup_toMembers).sublist (List.filter_sublist.map _), ?_⟩
  intro member hmember
  have hmem := (List.mem_filter.mp hmember).1
  have hpoint (p : Option Point) : (p.elim .null Point.toJson).isData = true := by
    cases p <;> rfl
  have htext (t : Option Text) : (t.elim .null Json.text).isData = true := by
    cases t <;> rfl
  simp only [toMembers, List.mem_cons, List.not_mem_nil, or_false] at hmem
  obtain rfl | rfl | rfl | rfl | rfl | rfl := hmem
  · exact h.id
  · exact h.description
  · exact htext _
  · exact htext _
  · exact hpoint _
  · exact hpoint _

/-- What is in a catalog's text is the catalog. -/
theorem load_of_dump {messages : List Message} {t : Text} (h : ∀ m ∈ messages, m.IsData)
    (ht : dump messages = .ok t) : load t = .ok messages := by
  have hdata : (Json.list (messages.map toJson)).isData = true := by
    rw [Json.isData_list, List.forall_mem_map]
    exact fun m hm ↦ isData_toJson (h m hm)
  have hread : Json.read t = .ok (.list (messages.map toJson)) := Json.read_of_print hdata ht
  have hitems : (messages.map toJson).mapM (fun item ↦ (ofJson item).mapError LoadError.invalid) =
      .ok messages := by
    rw [mapM_eq_ok, List.forall₂_map_left_iff, List.forall₂_same]
    exact fun m hm ↦ (mapError_eq_ok_iff _).mpr (ofJson_toJson (h m hm))
  rw [load, hread, ← hitems]
  rfl

/-- A catalog can be written iff no integer in its messages is too long. -/
theorem exists_dump_iff {messages : List Message} : (∃ t, dump messages = .ok t) ↔
    ∀ m ∈ messages, ∀ n ∈ m.toJson.integers, Json.IsWritable n := by
  refine Json.writes_iff.trans ?_
  rw [Json.forall_mem_integers_list, List.forall_mem_map]

/-- A catalog is read back from its text exactly when the text can be written, which takes that no
integer in its messages is too long. -/
theorem load_dump_iff {messages : List Message} (h : ∀ m ∈ messages, m.IsData) :
    (∃ t, dump messages = .ok t ∧ load t = .ok messages) ↔
      ∀ m ∈ messages, ∀ n ∈ m.toJson.integers, Json.IsWritable n := by
  rw [← exists_dump_iff]
  constructor
  · rintro ⟨t, ht, -⟩
    exact ⟨t, ht⟩
  · rintro ⟨t, ht⟩
    exact ⟨t, ht, load_of_dump h ht⟩

section Catalogs

/-- A message that has everything: a description with nulls within, quotes and control characters,
and a location. -/
def everything : Message where
  id := .text "say \"hi\"\n\x01"
  description := .object [("note", .null), ("uses", .list [.null, .float 0.5, .object []])]
  defaultMessage := some "Grüße"
  file := some "/proj/a.js"
  start := some ⟨1, 0⟩
  stop := some ⟨1, 18⟩

def numbered (id : MessageId) : Message := ⟨id, .null, none, none, none, none⟩

theorem everything_read_back :
    ∃ t, dump [everything, numbered (.int (-7)), numbered (.float 0.25)] = .ok t ∧
      load t = .ok [everything, numbered (.int (-7)), numbered (.float 0.25)] :=
  (load_dump_iff (by decide)).mpr (by decide)

/-- An id with one digit more than can be written. -/
def longId : MessageId := .int (10 ^ Text.digitLimit)

theorem dump_longId : dump [numbered longId] = .error (.tooManyDigits none) := by
  have hlong : Text.digitLimit < (Text.ofNat (10 ^ Text.digitLimit)).length := by
    rw [← not_le, Text.length_ofNat_le_iff (by decide)]
    exact lt_irrefl _
  have habs : (10 ^ Text.digitLimit : Int).natAbs = 10 ^ Text.digitLimit := by
    simp [Int.natAbs_pow]
  have hprint : Value.integerText (10 ^ Text.digitLimit) = .error (.tooManyDigits none) := by
    rw [Value.integerText, habs]
    exact if_pos hlong
  have hobject : (numbered longId).toJson = .object [("id", .int (10 ^ Text.digitLimit))] := rfl
  rw [dump, List.map_singleton, hobject, Json.print, Json.printAt, Json.printAt, Json.printAt,
    hprint]
  rfl

/-- A catalog takes an id that it then cannot be written with. -/
theorem longId_not_written :
    (numbered longId).IsData ∧
    (∃ c, Catalog.empty.put Catalog.emptySource .standard ⟨longId.toValue, .null, .null⟩ default =
        .ok (numbered longId) c ∧ c.messages = [numbered longId]) ∧
    dump [numbered longId] = .error (.tooManyDigits none) :=
  ⟨⟨rfl, rfl⟩, ⟨_, rfl, rfl⟩, dump_longId⟩

end Catalogs

end Message

end MessageExtraction
