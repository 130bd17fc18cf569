import MessageExtraction.Proofs.Catalog.Permutation

/-!
What counts as a conflict. A catalog compares what is declared with what it holds by an equality
under which a truth value is the number one or zero, at every depth. So it takes some values of data
for each other that are two, and those only.
-/

namespace MessageExtraction

namespace Json

mutual

/-- Whether two values are the same data: numbers by what they are, objects without regard to the
order of their members, and truth values apart from numbers. -/
def equal : Json → Json → Bool
  | .null, .null => true
  | .bool a, .bool b => a == b
  | .int m, .int n => m == n
  | .float x, .float y => x == y
  | .float x, .int n | .int n, .float x => Binary.isInt x n
  | .text s, .text t => s == t
  | .list js, .list ks => equalItems js ks
  | .object ms, .object ns => ms.length == ns.length && equalMembers ms ns
  | _, _ => false

def equalItems : List Json → List Json → Bool
  | [], [] => true
  | j :: js, k :: ks => equal j k && equalItems js ks
  | _, _ => false

/-- Whether each member of the first has an equal one of its name in the second. -/
def equalMembers : List (Text × Json) → List (Text × Json) → Bool
  | [], _ => true
  | (name, j) :: rest, ns =>
    (match ns.lookup name with
      | some k => equal j k
      | none => false) && equalMembers rest ns

end

mutual

/-- A value with every truth value in it replaced by one or zero. -/
def numeric : Json → Json
  | .bool b => .int (Value.ofBool b)
  | .list items => .list (numericItems items)
  | .object members => .object (numericMembers members)
  | j => j

def numericItems : List Json → List Json
  | [] => []
  | j :: rest => numeric j :: numericItems rest

def numericMembers : List (Text × Json) → List (Text × Json)
  | [] => []
  | (name, j) :: rest => (name, numeric j) :: numericMembers rest

end

theorem equal_list {js ks : List Json} :
    (list js).equal (list ks) = true ↔ List.Forall₂ (fun j k ↦ j.equal k = true) js ks := by
  rw [equal]
  induction js generalizing ks with
  | nil => cases ks <;> simp [equalItems]
  | cons j js ih => cases ks <;> simp [equalItems, ih]

theorem equalMembers_iff {ms ns : List (Text × Json)} :
    equalMembers ms ns = true ↔ ∀ m ∈ ms, ∃ k, ns.lookup m.1 = some k ∧ m.2.equal k = true := by
  induction ms with
  | nil => simp [equalMembers]
  | cons m ms ih =>
    rw [equalMembers, Bool.and_eq_true, ih, List.forall_mem_cons]
    refine and_congr_left' ?_
    cases ns.lookup m.1 <;> simp

theorem equal_object {ms ns : List (Text × Json)} :
    (object ms).equal (object ns) = true ↔ ms.length = ns.length ∧
      ∀ m ∈ ms, ∃ k, ns.lookup m.1 = some k ∧ m.2.equal k = true := by
  rw [equal, Bool.and_eq_true, beq_iff_eq, equalMembers_iff]

theorem numericItems_eq (items : List Json) : numericItems items = items.map numeric := by
  induction items with
  | nil => rfl
  | cons j items ih => rw [numericItems, ih, List.map_cons]

theorem numericMembers_eq (members : List (Text × Json)) :
    numericMembers members = members.map fun m ↦ (m.1, m.2.numeric) := by
  induction members with
  | nil => rfl
  | cons m members ih => rw [numericMembers, ih, List.map_cons]

theorem lookup_numericMembers (members : List (Text × Json)) (name : Text) :
    (numericMembers members).lookup name = (members.lookup name).map numeric := by
  induction members with
  | nil => rfl
  | cons m members ih =>
    rw [numericMembers, List.lookup_cons, List.lookup_cons, ih]
    cases name == m.1 <;> rfl

theorem numeric_list_equal {js ks : List Json} : (list js).numeric.equal (list ks).numeric = true ↔
    List.Forall₂ (fun j k ↦ j.numeric.equal k.numeric = true) js ks := by
  rw [numeric, numeric, equal_list, numericItems_eq, numericItems_eq, List.forall₂_map_left_iff,
    List.forall₂_map_right_iff]

theorem numeric_object_equal {ms ns : List (Text × Json)} :
    (object ms).numeric.equal (object ns).numeric = true ↔ ms.length = ns.length ∧
      ∀ m ∈ ms, ∃ k, ns.lookup m.1 = some k ∧ m.2.numeric.equal k.numeric = true := by
  rw [numeric, numeric, equal_object]
  simp only [numericMembers_eq ms, List.length_map, List.forall_mem_map, lookup_numericMembers,
    Option.map_eq_some_iff, exists_exists_and_eq_and]
  rw [numericMembers_eq, List.length_map]

theorem ofBool_inj {a b : Bool} : Value.ofBool a = Value.ofBool b ↔ a = b := by
  cases a <;> cases b <;> decide

theorem bool_same_iff (b : Bool) (k : Json) :
    (bool b).same k = true ↔ (bool b).numeric.equal k.numeric = true := by
  cases k with
  | bool c =>
    rw [numeric, numeric, equal, beq_iff_eq, ofBool_inj]
    exact beq_iff_eq (a := b) (b := c)
  | int n => exact Bool.eq_iff_iff.mp (BEq.comm (a := n) (b := Value.ofBool b))
  | _ => exact Iff.rfl

/-- What a catalog compares is what is left when truth values are numbers. -/
theorem same_iff {j k : Json} : j.same k = true ↔ j.numeric.equal k.numeric = true := by
  induction j using induction generalizing k with
  | bool b => exact bool_same_iff b k
  | null | int | float | text => cases k <;> rfl
  | list items ih =>
    cases k with
    | list items' =>
      rw [same_list, numeric_list_equal, List.forall₂_iff_get, List.forall₂_iff_get]
      exact and_congr_right' (forall₃_congr fun i hi hi' ↦ ih _ (List.get_mem _ _))
    | _ => exact Iff.rfl
  | object members ih =>
    cases k with
    | object members' =>
      rw [same_object, numeric_object_equal]
      exact and_congr_right' (forall₂_congr fun m hm ↦ exists_congr fun k ↦
        and_congr_right' (ih m hm))
    | _ => exact Iff.rfl

/-- What is the same data stays so when truth values become numbers. -/
theorem numeric_equal {j k : Json} (h : j.equal k = true) : j.numeric.equal k.numeric = true := by
  induction j using induction generalizing k with
  | null | bool | int | float | text => cases k <;> simp_all [numeric, equal]
  | list items ih =>
    cases k with
    | list items' =>
      rw [equal_list, List.forall₂_iff_get] at h
      rw [numeric_list_equal, List.forall₂_iff_get]
      exact ⟨h.1, fun i hi hi' ↦ ih _ (List.get_mem _ _) (h.2 i hi hi')⟩
    | _ => cases h
  | object members ih =>
    cases k with
    | object members' =>
      rw [equal_object] at h
      rw [numeric_object_equal]
      refine ⟨h.1, fun m hm ↦ ?_⟩
      obtain ⟨k, hk, hequal⟩ := h.2 m hm
      exact ⟨k, hk, ih m hm hequal⟩
    | _ => cases h

end Json

/-- A text that may be left out. -/
def Json.ofText? : Option Text → Json
  | some t => .text t
  | none => .null

/-- A descriptor of data; what is left out is null. -/
def Descriptor.ofJson (id description defaultMessage : Json) : Descriptor :=
  ⟨id.toValue, description.toValue, defaultMessage.toValue⟩

namespace Message

variable {m : Message} {j k : Json}

/-- Whether a message has this description and this default message. -/
def states (m : Message) (description defaultMessage : Json) : Bool :=
  m.description.equal description && (Json.ofText? m.defaultMessage).equal defaultMessage

def numeric (m : Message) : Message := { m with description := m.description.numeric }

theorem numeric_ofText? (t : Option Text) : (Json.ofText? t).numeric = Json.ofText? t := by
  cases t <;> rfl

theorem agrees_ofJson {i : Json} :
    Catalog.agrees m (.ofJson i j k) = m.numeric.states j.numeric k.numeric := by
  have htext : Catalog.textValue m.defaultMessage = (Json.ofText? m.defaultMessage).toValue := by
    cases m.defaultMessage <;> rfl
  rw [Bool.eq_iff_iff, Catalog.agrees, states, Bool.and_eq_true, Bool.and_eq_true,
    Descriptor.ofJson, htext, Json.equal_toValue, Json.equal_toValue, Json.same_iff,
    Json.same_iff, numeric_ofText?]
  rfl

theorem numeric_states (h : m.states j k = true) : m.numeric.states j.numeric k.numeric = true := by
  rw [states, Bool.and_eq_true] at h ⊢
  refine ⟨Json.numeric_equal h.1, ?_⟩
  have hdefault := Json.numeric_equal h.2
  rwa [numeric_ofText?] at hdefault

end Message

namespace Catalog

variable {c : Catalog} {s : Source} {o : Options} {d : Descriptor} {p : Place} {m : Message}
  {id : MessageId}

/-- Whether a declaration is refused as one that says something else of a message, which leaves the catalog
as it was. -/
def Conflicts (c : Catalog) (s : Source) (o : Options) (d : Descriptor) (p : Place) : Prop :=
  ∃ r, c.put s o d p = .error (.rejected r) c ∧ r.kind = .duplicateId

/-- No two messages being of one id, each is what is found under its id. -/
theorem find?_of_mem (hdistinct : c.messages.Pairwise fun m m' ↦ m.id.same m'.id = false)
    (hm : m ∈ c.messages) (hid : m.id.same id = true) :
    ∃ e, c.find? id.toValue = some e ∧ e.message = m := by
  obtain ⟨e, he, rfl⟩ := List.mem_map.mp hm
  obtain ⟨before, after, hentries⟩ := List.append_of_mem he
  refine ⟨e, List.find?_eq_some_iff_append.mpr ⟨hid, before, after, hentries, ?_⟩, rfl⟩
  intro e' he'
  rw [messages, hentries, List.map_append, List.pairwise_append] at hdistinct
  have hne := hdistinct.2.2 _ (List.mem_map_of_mem he') _ List.mem_cons_self
  cases hsame : e'.message.id.same id with
  | false => exact congrArg not hsame
  | true =>
    rw [MessageId.same_trans hsame (MessageId.same_comm _ _ ▸ hid)] at hne
    cases hne

/-- A declaration of an id that is stored is a conflict iff what is stored says something else and
the id can be put into the words of the complaint. -/
theorem conflicts_iff {e : Entry} (hid : MessageId.ofValue? d.id = some id)
    (he : c.find? id.toValue = some e) :
    c.Conflicts s o d p ↔ agrees e.message d = false ∧ ∃ t, id.shown = .ok t := by
  constructor
  · intro ⟨r, hput, hkind⟩
    generalize hf : Failure.rejected r = f at hput
    cases (put_eq_error_iff.mp hput).2 with
    | invalidId | missingDescription =>
      cases hf
      cases hkind
    | invalidDescriptor => cases hf
    | conflict hid' he' ha =>
      obtain rfl := Option.some.inj (hid.symm.trans hid')
      obtain rfl := Option.some.inj (he.symm.trans he')
      refine ⟨ha, ?_⟩
      cases hshown : id.shown with
      | ok t => exact ⟨t, rfl⟩
      | error f =>
        rw [conflict, hshown] at hf
        cases hf
  · intro ⟨ha, t, ht⟩
    have hput := put_of_conflict (s := s) (o := o) (p := p) hid he ha
    rw [conflict, ht] at hput
    exact ⟨_, hput, rfl⟩

/-- A declaration of data under an id that a catalog holds is a conflict exactly if it differs from
what is stored by more than truth values in the place of ones and zeros, and its id can be named. To
be a conflict is to be other data exactly if what is other data always is so in that way. -/
theorem conflict_exact_iff (s : Source) (o : Options) (ds : List Declaration) {i : Json}
    (j k : Json) (p : Place) (hm : m ∈ (empty.afterAll s o ds).messages)
    (hid : MessageId.ofValue? i.toValue = some id) (hsame : m.id.same id = true) :
    ((empty.afterAll s o ds).Conflicts s o (.ofJson i j k) p ↔
      m.numeric.states j.numeric k.numeric = false ∧ ∃ t, id.shown = .ok t) ∧
    (((empty.afterAll s o ds).Conflicts s o (.ofJson i j k) p ↔ m.states j k = false) ↔
      (m.states j k = false →
        m.numeric.states j.numeric k.numeric = false ∧ ∃ t, id.shown = .ok t)) := by
  obtain ⟨e, he, rfl⟩ := find?_of_mem ((records_empty s o).afterAll ds).distinct hm hsame
  have hconflicts : (empty.afterAll s o ds).Conflicts s o (.ofJson i j k) p ↔
      e.message.numeric.states j.numeric k.numeric = false ∧ ∃ t, id.shown = .ok t := by
    rw [← Message.agrees_ofJson (i := i)]
    exact conflicts_iff hid he
  have hother (h : e.message.numeric.states j.numeric k.numeric = false) :
      e.message.states j k = false := by
    cases hstates : e.message.states j k with
    | false => rfl
    | true =>
      rw [Message.numeric_states hstates] at h
      cases h
  refine ⟨hconflicts, ?_⟩
  rw [hconflicts]
  exact ⟨Iff.mpr, fun h ↦ ⟨fun hn ↦ hother hn.1, h⟩⟩

section Coalesced

def stored (description : Json) : Catalog :=
  empty.afterAll emptySource .standard [declares (.text "a", description) default]

def storedMessage (description : Json) : Message :=
  ⟨.text "a", description, some "Hi", none, none, none⟩

theorem conflict_of_member :
    (stored (.object [("x", .int 1), ("y", .bool false)])).Conflicts emptySource .standard
      (.ofJson (.text "a") (.object [("y", .bool true), ("x", .int 1)]) (.text "Hi")) default ↔
    (storedMessage (.object [("x", .int 1), ("y", .bool false)])).states
      (.object [("y", .bool true), ("x", .int 1)]) (.text "Hi") = false := by
  have hexact := conflict_exact_iff emptySource .standard
    [declares (.text "a", .object [("x", .int 1), ("y", .bool false)]) default] (i := .text "a")
    (.object [("y", .bool true), ("x", .int 1)]) (.text "Hi") default List.mem_cons_self rfl rfl
  exact hexact.2.mpr fun _ ↦ ⟨by decide +kernel, _, rfl⟩

theorem truthValue_taken_for_number :
    ¬((stored (.bool true)).Conflicts emptySource .standard
        (.ofJson (.text "a") (.int 1) (.text "Hi")) default ↔
      (storedMessage (.bool true)).states (.int 1) (.text "Hi") = false) := by
  intro h
  obtain ⟨r, hput, -⟩ := h.mpr (by decide +kernel)
  cases hput

end Coalesced

end Catalog

end MessageExtraction
