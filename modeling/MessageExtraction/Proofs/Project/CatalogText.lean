import MessageExtraction.Proofs.Extraction.Traversal
import MessageExtraction.Proofs.Json.Conformance
import MessageExtraction.Proofs.Message.RoundTrip
import MessageExtraction.Proofs.Project.Emission

/-!
Which catalogs are JSON. What the attributes of an element say becomes data on its way into the
catalog, and a number in it that is not finite becomes null. The number that a call names its
message by does not, and an integer of either may be too long to be written; nothing else in a
message keeps its catalog from being JSON.
-/

namespace MessageExtraction

/-- Whatever a value is stored as has finite doubles. -/
def Value.IsFinite (v : Value) : Prop := ∀ j, v.toJson? = some j → j.IsFinite

namespace Value

mutual

theorem isFinite_kept (v : Value) : v.kept.IsFinite := by
  intro j h
  match v with
  | .float x =>
    rw [kept] at h
    split at h
    · rename_i hx
      obtain rfl := Option.some.inj h
      exact Json.isFinite_float.mpr hx
    · obtain rfl := Option.some.inj h
      exact Json.isFinite_of_no_floats rfl
  | .list items =>
    rw [kept, toJson?] at h
    obtain ⟨js, hjs, rfl⟩ := Option.map_eq_some_iff.mp h
    exact Json.isFinite_list.mpr (isFinite_keptItems items hjs)
  | .object members =>
    rw [kept, toJson?] at h
    obtain ⟨js, hjs, rfl⟩ := Option.map_eq_some_iff.mp h
    exact Json.isFinite_object.mpr (isFinite_keptMembers members hjs)
  | .null | .undefined | .nan | .bool _ | .int _ | .text _ =>
    obtain rfl := Option.some.inj h
    exact Json.isFinite_of_no_floats rfl
  | .complex _ _ => cases h

theorem isFinite_keptItems (vs : List Value) {js : List Json}
    (h : toJsonItems? (keptItems vs) = some js) : ∀ j ∈ js, j.IsFinite := by
  match vs with
  | [] =>
    obtain rfl := Option.some.inj h
    simp
  | v :: vs =>
    rw [keptItems, toJsonItems?] at h
    obtain ⟨j, hj, h⟩ := Option.bind_eq_some_iff.mp h
    obtain ⟨rest, hrest, h⟩ := Option.bind_eq_some_iff.mp h
    obtain rfl := Option.some.inj h
    exact List.forall_mem_cons.mpr ⟨isFinite_kept v j hj, isFinite_keptItems vs hrest⟩

theorem isFinite_keptMembers (members : List (Text × Value)) {js : List (Text × Json)}
    (h : toJsonMembers? (keptMembers members) = some js) : ∀ m ∈ js, m.2.IsFinite := by
  match members with
  | [] =>
    obtain rfl := Option.some.inj h
    simp
  | (name, v) :: members =>
    rw [keptMembers] at h
    split at h
    · exact isFinite_keptMembers members h
    · rw [toJsonMembers?] at h
      obtain ⟨j, hj, h⟩ := Option.bind_eq_some_iff.mp h
      obtain ⟨rest, hrest, h⟩ := Option.bind_eq_some_iff.mp h
      obtain rfl := Option.some.inj h
      exact List.forall_mem_cons.mpr ⟨isFinite_kept v j hj, isFinite_keptMembers members hrest⟩

end

theorem isFinite_of_toJson? {v : Value} {j : Json} (h : v.toJson? = some j) (hj : j.floats = []) :
    v.IsFinite := by
  intro k hk
  obtain rfl := Option.some.inj (h.symm.trans hk)
  exact Json.isFinite_of_no_floats hj

theorem isFinite_trimmed {v : Value} (h : v.IsFinite) : (Source.trimmed v).IsFinite := by
  cases v with
  | text t => exact isFinite_of_toJson? rfl rfl
  | _ => exact h

end Value

namespace MessageId

/-- A number that JSON has words for; a text always has them. -/
def isFinite : MessageId → Bool
  | .float x => Binary.isFinite x
  | .nan => false
  | _ => true

theorem isFinite_toJson (i : MessageId) : i.toJson.IsFinite ↔ i.isFinite = true := by
  cases i with
  | text | int => exact iff_of_true (Json.isFinite_of_no_floats rfl) rfl
  | float x => exact Json.isFinite_float
  | nan =>
    have hnan : Binary.isFinite (0 / 0) = false := by decide
    rw [toJson, Json.isFinite_float, hnan]
    rfl

theorem toJson?_of_ofValue? {v : Value} {i : MessageId} (h : ofValue? v = some i) :
    v.toJson? = some i.toJson := by
  rw [← toValue_of_ofValue? h]
  cases i <;> rfl

end MessageId

namespace Message

theorem isFinite_toJson (m : Message) :
    m.toJson.IsFinite ↔ m.id.isFinite = true ∧ m.description.IsFinite := by
  have hpoint (p : Option Point) : (p.elim .null Point.toJson).IsFinite := by
    cases p <;> exact Json.isFinite_of_no_floats rfl
  have htext (t : Option Text) : (t.elim .null Json.text).IsFinite := by
    cases t <;> exact Json.isFinite_of_no_floats rfl
  have hmembers : m.toJson.IsFinite ↔ ∀ member ∈ m.toMembers, member.2.IsFinite := by
    rw [toJson, Json.isFinite_object]
    refine ⟨fun h member hmember ↦ ?_, fun h member hmember ↦ h _ (List.mem_of_mem_filter hmember)⟩
    obtain ⟨name, j⟩ := member
    -- what is left out is null, which has no doubles
    cases j with
    | null => exact Json.isFinite_of_no_floats rfl
    | _ => exact h _ (List.mem_filter.mpr ⟨hmember, rfl⟩)
  rw [hmembers, toMembers]
  simp only [List.forall_mem_cons, List.not_mem_nil, IsEmpty.forall_iff, implies_true, and_true,
    MessageId.isFinite_toJson, hpoint, htext]

/-- A catalog is JSON iff the doubles in its messages are finite and no integer is too long. -/
theorem dump_isText_iff (messages : List Message) :
    (∃ t, dump messages = .ok t ∧ Json.IsText t) ↔
      ∀ m ∈ messages, m.toJson.IsFinite ∧ ∀ n ∈ m.toJson.integers, Json.IsWritable n := by
  have hfinite : (Json.list (messages.map toJson)).IsFinite ↔
      ∀ m ∈ messages, m.toJson.IsFinite := by
    rw [Json.isFinite_list, List.forall_mem_map]
  rw [forall₂_and, ← exists_dump_iff, ← hfinite]
  constructor
  · rintro ⟨t, ht, htext⟩
    exact ⟨(Json.isText_iff_of_print ht).mp htext, t, ht⟩
  · rintro ⟨hfinite, t, ht⟩
    exact ⟨t, ht, (Json.isText_iff_of_print ht).mpr hfinite⟩

end Message

/-- Its id and its description have finite doubles. -/
structure Descriptor.IsFinite (d : Descriptor) : Prop where
  id : d.id.IsFinite
  description : d.description.IsFinite

namespace Source

open Extraction

variable {s : Source} {o : Options} {p : Place}

theorem isFinite_fieldValue {w : Option Place} {v : Value} (h : s.fieldValue w = .ok v) :
    v.IsFinite := by
  cases w with
  | none =>
    obtain rfl := Except.ok.inj h
    exact Value.isFinite_of_toJson? rfl rfl
  | some p =>
    obtain ⟨q, -, h⟩ := bind_eq_ok.mp h
    obtain ⟨u, -, h⟩ := bind_eq_ok.mp h
    rw [← pure_eq_ok.mp h]
    exact Value.isFinite_trimmed (Value.isFinite_kept u)

theorem isFinite_evaluateDescriptor {fields : List (Descriptor.Field × Descriptor.Written)}
    {d : Descriptor} (h : s.evaluateDescriptor fields = .ok d) : d.IsFinite := by
  have hnull : Value.null.IsFinite := Value.isFinite_of_toJson? rfl rfl
  refine foldlM_keeps (P := Descriptor.IsFinite) ⟨hnull, hnull⟩ ?_ h
  rintro d ⟨f, w⟩ d' - hd h
  cases f with
  | id =>
    obtain ⟨v, hv, h⟩ := bind_eq_ok.mp h
    rw [← pure_eq_ok.mp h]
    exact ⟨isFinite_fieldValue hv, hd.description⟩
  | description =>
    obtain ⟨v, hv, h⟩ := bind_eq_ok.mp h
    rw [← pure_eq_ok.mp h]
    exact ⟨hd.id, isFinite_fieldValue hv⟩
  | defaultMessage =>
    obtain ⟨t, -, h⟩ := bind_eq_ok.mp h
    rw [← pure_eq_ok.mp h]
    exact ⟨hd.id, hd.description⟩

theorem isFinite_of_attributeDeclaration {d : Declaration}
    (h : s.attributeDeclaration p = .ok (some d)) : d.descriptor.IsFinite := by
  obtain ⟨fields, -, h⟩ := bind_eq_ok.mp h
  split at h
  · cases pure_eq_ok.mp h
  · obtain ⟨descriptor, hdescriptor, h⟩ := bind_eq_ok.mp h
    obtain rfl := Option.some.inj (pure_eq_ok.mp h)
    exact isFinite_evaluateDescriptor hdescriptor

/-- A call that names its message by a double. -/
structure NamesDouble (s : Source) (call : Place) (x : Float) : Prop where
  isCall : call.kind = "call_expression"
  argument : ∃ q, (arguments call).head? = some q ∧ q.kind = "number" ∧
    s.numberValue q = .ok (.float x)

/-- What is declared has finite doubles, but for the double that a call names its message by. -/
theorem isFinite_of_declared? {d : Declaration} (h : s.declared? o p = .ok (some d)) :
    d.descriptor.description.IsFinite ∧
      (d.descriptor.id.IsFinite ∨ ∃ x, s.NamesDouble p x ∧ d.descriptor.id = .float x) := by
  obtain ⟨-, h⟩ | ⟨hc, first, rest, id, ha, hid, rfl⟩ := declared?_eq_some h
  · have hd := isFinite_of_attributeDeclaration h
    exact ⟨hd.description, .inl hd.id⟩
  · refine ⟨Value.isFinite_of_toJson? rfl rfl, ?_⟩
    unfold literalId at hid
    split at hid
    · obtain ⟨t, -, h⟩ := bind_eq_ok.mp hid
      rw [← pure_eq_ok.mp h]
      exact .inl (Value.isFinite_of_toJson? rfl rfl)
    · rename_i hk
      obtain ⟨l, hl, h⟩ := bind_eq_ok.mp hid
      have hl := (mapError_eq_ok_iff _).mp hl
      rw [← pure_eq_ok.mp h]
      cases l with
      | int n => exact .inl (Value.isFinite_of_toJson? rfl rfl)
      | float x => exact .inr ⟨x, ⟨hc, first, by rw [ha]; rfl, hk, hl⟩, rfl⟩
    · cases hid

end Source

namespace Extraction

variable {s : Source} {o : Options} {y : Extraction} {fs fs' : FileSystem} {cwd : Path}
  {r : FileResult}

theorem Reached.exists_declared {before : List Place} (h : Reached s o before y) {m : Message}
    (hm : m ∈ y.messages) :
    ∃ p ∈ before, ∃ d, s.declared? o p = .ok (some d) ∧ d.IsStoredAs s o m := by
  obtain ⟨d, hd, hstored⟩ := exists_mem_of_forall₂ h.messages.flip hm
  obtain ⟨p, hp, hdeclared⟩ := List.mem_filterMap.mp (Declaration.mem_of_mem_firsts hd)
  refine ⟨p, hp, d, ?_, hstored⟩
  split at hdeclared
  · rename_i d' hd'
    rw [hd', hdeclared]
  · cases hdeclared

theorem exists_traverse_of_runOn {x : Extraction} (h : x.runOn fs cwd = (fs', y, .ok r)) :
    ∃ ended, x.begin.traverse = (ended, none) ∧ r.messages = ended.messages := by
  cases emits_of_runOn h with
  | untold ht _ => exact ⟨_, ht, rfl⟩
  | written o _ => exact ⟨_, o.traverse_eq, rfl⟩

/-- A file that comes out has a catalog that is JSON exactly when the ids of its messages are finite
and no integer in them is too long to be written. Ids that are not finite are the doubles that calls
name their messages by. -/
theorem catalog_isText_iff (h : (fresh s o).runOn fs cwd = (fs', y, .ok r)) :
    ((∃ t, Message.dump r.messages = .ok t ∧ Json.IsText t) ↔
      ∀ m ∈ r.messages, m.id.isFinite = true ∧ ∀ n ∈ m.toJson.integers, Json.IsWritable n) ∧
    ∀ m ∈ r.messages, m.id.isFinite = false →
      ∃ call ∈ s.places, ∃ x, s.NamesDouble call x ∧ m.id = .float x := by
  obtain ⟨ended, ht, hmessages⟩ := exists_traverse_of_runOn h
  have hreached := reached_of_traverse ht
  rw [hmessages]
  constructor
  · rw [Message.dump_isText_iff]
    refine forall₂_congr fun m hm ↦ and_congr_left' ?_
    obtain ⟨p, -, d, hd, hstored⟩ := hreached.exists_declared hm
    have hdescription : m.description.IsFinite :=
      (Source.isFinite_of_declared? hd).1 _ hstored.description
    rw [Message.isFinite_toJson, and_iff_left hdescription]
  · intro m hm hid
    obtain ⟨p, hp, d, hd, hstored⟩ := hreached.exists_declared hm
    obtain hfinite | ⟨x, hx, hv⟩ := (Source.isFinite_of_declared? hd).2
    · have hjson := hfinite _ (MessageId.toJson?_of_ofValue? hstored.id)
      rw [MessageId.isFinite_toJson, hid] at hjson
      cases hjson
    · refine ⟨p, hp, x, hx, ?_⟩
      have hid := hstored.id
      rw [Declaration.id?, hv] at hid
      exact (Option.some.inj hid).symm

end Extraction

section NumberCalls

open Extraction

/-- The call with a number, given by what is written for it. -/
def numberCall (digits : Text) : File where
  bytes := (Utf8.encode? (("formatIntlMessage(" : Text) ++ digits ++ (");" : Text))).getD []
  tree := some (callProgram [⟨"number", true, 18, 18 + digits.length, [], []⟩]
    (19 + digits.length), false)

def numberCallRun (digits : Text) : FileSystem × Extraction × Except FileFailure FileResult :=
  (fresh (openedCall (numberCall digits)).source catalogOptions).runOn
    (projectOf (numberCall digits)) projectRoot

theorem exists_runOn_eq_ok (digits : Text) (P : FileResult → Bool)
    (h : (match (numberCallRun digits).2.2 with | .ok r => P r | .error _ => false) = true) :
    ∃ fs' y r, numberCallRun digits = (fs', y, .ok r) ∧ P r = true := by
  rcases hr : numberCallRun digits with ⟨fs', y, e | r⟩
  · rw [hr] at h
    cases h
  · rw [hr] at h
    exact ⟨fs', y, r, rfl, h⟩

theorem halfCall_isText : ∃ fs' y r, numberCallRun "0.5" = (fs', y, .ok r) ∧
    ∃ t, Message.dump r.messages = .ok t ∧ Json.IsText t := by
  obtain ⟨fs', y, r, hrun, hids⟩ := exists_runOn_eq_ok "0.5"
    (fun r ↦ decide (∀ m ∈ r.messages, m.id.isFinite = true ∧
      ∀ n ∈ m.toJson.integers, Json.IsWritable n)) (by decide +kernel)
  exact ⟨fs', y, r, hrun, (catalog_isText_iff hrun).1.mpr (of_decide_eq_true hids)⟩

def infinityCatalog : Text := "[\n  \x7b\n    \"id\": Infinity\n  \x7d\n]"

/-- A call with a number past all doubles comes out with a catalog that is not JSON. -/
theorem hugeCall_not_isText : ∃ fs' y r, numberCallRun "1e999" = (fs', y, .ok r) ∧
    Message.dump r.messages = .ok infinityCatalog ∧ ¬Json.IsText infinityCatalog := by
  obtain ⟨fs', y, r, hrun, hdump⟩ := exists_runOn_eq_ok "1e999"
    (fun r ↦ (Message.dump r.messages).toOption == some infinityCatalog) (by decide +kernel)
  have hstray : Json.scan infinityCatalog = .stray := by decide
  refine ⟨fs', y, r, hrun, ?_, fun htext ↦ ?_⟩
  · cases hd : Message.dump r.messages with
    | error e =>
      rw [hd] at hdump
      cases hdump
    | ok t =>
      rw [hd] at hdump
      exact congrArg Except.ok (Option.some.inj (eq_of_beq hdump))
  · rw [Json.scan_isText htext] at hstray
    cases hstray

end NumberCalls

end MessageExtraction
