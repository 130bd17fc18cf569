import MessageExtraction.Proofs.Catalog.FirstDeclarations

/-!
What a catalog is after any number of declarations, some of them refused: the record of those that
were accepted, in which no entry ever changes and of which a refusal leaves no trace.
-/

namespace MessageExtraction

namespace MessageId

def IsKey : MessageId → Prop
  | .text t => t ≠ []
  | .int _ | .float _ | .nan => True

theorem isKey_of_ofValue? {v : Value} {i : MessageId} (h : ofValue? v = some i) : i.IsKey := by
  cases v with
  | text t =>
    simp only [ofValue?] at h
    split at h
    · cases h
    · rename_i ht
      cases h
      simpa [IsKey] using ht
  | int n | float x | nan =>
    cases h
    trivial
  | _ => cases h

end MessageId

namespace Catalog

open Declaration

variable {s : Source} {o : Options} {c c' : Catalog} {hs ds : List Declaration} {d : Declaration}
  {m : Message}

theorem isEmpty_toValues {items : List Value} {js : List Json}
    (h : Value.toJsonItems? items = some js) : (Json.toValues js).isEmpty = items.isEmpty := by
  cases items with
  | nil =>
    cases h
    rfl
  | cons v items =>
    simp only [Value.toJsonItems?, bind, Option.bind_eq_some_iff] at h
    obtain ⟨j, -, rest, -, h⟩ := h
    cases h
    rfl

theorem isEmpty_toMembers {members : List (Text × Value)} {js : List (Text × Json)}
    (h : Value.toJsonMembers? members = some js) :
    (Json.toMembers js).isEmpty = members.isEmpty := by
  cases members with
  | nil =>
    cases h
    rfl
  | cons member members =>
    simp only [Value.toJsonMembers?, bind, Option.bind_eq_some_iff] at h
    obtain ⟨j, -, rest, -, h⟩ := h
    cases h
    rfl

/-- A description says something after it is stored iff it did before. -/
theorem isMissing_toValue {v : Value} {j : Json} (h : v.toJson? = some j) :
    isMissing j.toValue = isMissing v := by
  cases v with
  | list items =>
    rw [Value.toJson?, Option.map_eq_some_iff] at h
    obtain ⟨js, hjs, rfl⟩ := h
    exact isEmpty_toValues hjs
  | object members =>
    rw [Value.toJson?, Option.map_eq_some_iff] at h
    obtain ⟨js, hjs, rfl⟩ := h
    exact isEmpty_toMembers hjs
  | nan =>
    cases h
    decide
  | undefined | complex => simp [Value.toJson?] at h
  | _ =>
    simp only [Value.toJson?, Option.some.injEq] at h
    subst h
    simp only [Json.toValue]

/-- A catalog is the record of a history: the entries are those of the first declarations, no two
are of the same id, and each has an id and, if it has to have one, a description. -/
structure Records (s : Source) (o : Options) (c : Catalog) (hs : List Declaration) : Prop where
  holds : c.Holds s o hs
  distinct : c.messages.Pairwise fun m m' ↦ m.id.same m'.id = false
  keys : ∀ m ∈ c.messages, m.id.IsKey
  described : o.enforceDescriptions = true → ∀ m ∈ c.messages, isMissing m.description.toValue = false

theorem records_empty (s : Source) (o : Options) : empty.Records s o [] where
  holds := holds_empty s o
  distinct := .nil
  keys := by simp [messages, empty]
  described := by simp [messages, empty]

/-- A declaration that is accepted goes on record. -/
theorem Records.put (h : c.Records s o hs) (hput : c.put s o d.descriptor d.place = .ok m c') :
    c'.Records s o (hs ++ [d]) := by
  have hholds := h.holds.put hput
  obtain ⟨id, hid, hdescribed, hcases⟩ := put_cases hput
  obtain ⟨e, -, -, -, rfl⟩ | ⟨hnone, hm, rfl⟩ := hcases
  · exact ⟨hholds, h.distinct, h.keys, h.described⟩
  have hstored := isStoredAs_of_store hid hm
  have hmessages : messages ⟨c.entries ++ [⟨m, s.startOf d.place⟩]⟩ = c.messages ++ [m] := by
    simp [messages]
  refine ⟨hholds, ?_, ?_, ?_⟩
  · rw [hmessages, List.pairwise_append]
    refine ⟨h.distinct, List.pairwise_singleton _ _, ?_⟩
    intro m' hm' n hn
    obtain rfl := List.mem_singleton.mp hn
    obtain ⟨e, he, rfl⟩ := List.mem_map.mp hm'
    obtain rfl := Option.some.inj (hid.symm.trans hstored.id)
    exact Bool.not_eq_true _ ▸ List.find?_eq_none.mp hnone e he
  · rw [hmessages]
    intro m' hm'
    obtain hm' | hm' := List.mem_append.mp hm'
    · exact h.keys m' hm'
    · obtain rfl := List.mem_singleton.mp hm'
      exact MessageId.isKey_of_ofValue? hstored.id
  · rw [hmessages]
    intro ho m' hm'
    obtain hm' | hm' := List.mem_append.mp hm'
    · exact h.described ho m' hm'
    · obtain rfl := List.mem_singleton.mp hm'
      rw [isMissing_toValue hstored.description]
      exact hdescribed ho

/-- What a catalog is after a declaration, whether it is accepted or refused. -/
def after (s : Source) (o : Options) (c : Catalog) (d : Declaration) : Catalog :=
  match c.put s o d.descriptor d.place with
  | .ok _ c' | .error _ c' => c'

def afterAll (s : Source) (o : Options) (c : Catalog) (ds : List Declaration) : Catalog :=
  ds.foldl (after s o) c

/-- The declarations that are not refused, each in its turn. -/
def accepted (s : Source) (o : Options) (c : Catalog) : List Declaration → List Declaration
  | [] => []
  | d :: ds =>
    match c.put s o d.descriptor d.place with
    | .ok _ c' => d :: accepted s o c' ds
    | .error _ c' => accepted s o c' ds

theorem after_of_ok (h : c.put s o d.descriptor d.place = .ok m c') : c.after s o d = c' := by
  rw [after, h]

/-- A declaration that is refused leaves the catalog as it is. -/
theorem after_of_error {f : Failure} (h : c.put s o d.descriptor d.place = .error f c') :
    c.after s o d = c := by
  rw [after, h]
  exact eq_of_put_eq_error h

theorem accepted_of_ok (h : c.put s o d.descriptor d.place = .ok m c') :
    c.accepted s o (d :: ds) = d :: c'.accepted s o ds := by
  rw [accepted, h]

theorem accepted_of_error {f : Failure} (h : c.put s o d.descriptor d.place = .error f c') :
    c.accepted s o (d :: ds) = c.accepted s o ds := by
  rw [accepted, h, eq_of_put_eq_error h]

/-- After any declarations a catalog is the record of those that it accepted. -/
theorem Records.afterAll (h : c.Records s o hs) (ds : List Declaration) :
    (c.afterAll s o ds).Records s o (hs ++ c.accepted s o ds) := by
  induction ds generalizing c hs with
  | nil =>
    rw [accepted, List.append_nil]
    exact h
  | cons d ds ih =>
    rw [Catalog.afterAll, List.foldl_cons]
    cases hput : c.put s o d.descriptor d.place with
    | ok m c' =>
      have hrecords := ih (h.put hput)
      rw [List.append_assoc, List.singleton_append] at hrecords
      rw [after_of_ok hput, accepted_of_ok hput]
      exact hrecords
    | error f c' =>
      rw [after_of_error hput, accepted_of_error hput]
      exact ih h

/-- A refusal leaves no trace: without the refused declarations it all goes the same way. -/
theorem afterAll_accepted (s : Source) (o : Options) (c : Catalog) (ds : List Declaration) :
    c.afterAll s o (c.accepted s o ds) = c.afterAll s o ds := by
  induction ds generalizing c with
  | nil => rfl
  | cons d ds ih =>
    cases hput : c.put s o d.descriptor d.place with
    | ok m c' =>
      rw [accepted_of_ok hput, afterAll, List.foldl_cons, afterAll, List.foldl_cons,
        after_of_ok hput]
      exact ih c'
    | error f c' =>
      rw [accepted_of_error hput, ih, afterAll, afterAll, List.foldl_cons, after_of_error hput]

theorem entries_prefix_after (s : Source) (o : Options) (c : Catalog) (d : Declaration) :
    c.entries <+: (c.after s o d).entries := by
  cases hput : c.put s o d.descriptor d.place with
  | ok m c' =>
    rw [after_of_ok hput]
    obtain ⟨_, _, _, ⟨_, _, _, _, rfl⟩ | ⟨_, _, rfl⟩⟩ := put_cases hput
    · exact List.prefix_rfl
    · exact List.prefix_append _ _
  | error f c' =>
    rw [after_of_error hput]

theorem entries_prefix_afterAll (s : Source) (o : Options) (c : Catalog) (ds : List Declaration) :
    c.entries <+: (c.afterAll s o ds).entries := by
  induction ds generalizing c with
  | nil => exact List.prefix_rfl
  | cons d ds ih => exact (entries_prefix_after s o c d).trans (ih (c.after s o d))

/-- After any calls on a new catalog, accepted and refused in any mix, it is the record of the
accepted ones, which alone would have made it the same. Its entries stay what they are whatever comes
after, and the next call is accepted, or refused for a reason and without effect. -/
theorem records_accepted_puts (s : Source) (o : Options) (ds es : List Declaration) :
    (empty.afterAll s o ds).Records s o (empty.accepted s o ds) ∧
      empty.afterAll s o (empty.accepted s o ds) = empty.afterAll s o ds ∧
      (empty.afterAll s o ds).entries <+: (empty.afterAll s o (ds ++ es)).entries ∧
      ∀ d : Declaration,
        (∃ m, (empty.afterAll s o ds).put s o d.descriptor d.place =
          .ok m (empty.afterAll s o (ds ++ [d]))) ∨
        ∃ f, (empty.afterAll s o ds).put s o d.descriptor d.place =
            .error f (empty.afterAll s o ds) ∧
          (empty.afterAll s o ds).Refuses s o d.descriptor d.place f ∧
          empty.afterAll s o (ds ++ [d]) = empty.afterAll s o ds := by
  have happend (es : List Declaration) :
      empty.afterAll s o (ds ++ es) = (empty.afterAll s o ds).afterAll s o es :=
    List.foldl_append
  refine ⟨(records_empty s o).afterAll ds, afterAll_accepted s o empty ds, ?_, ?_⟩
  · rw [happend]
    exact entries_prefix_afterAll s o _ es
  · intro d
    rw [happend]
    cases hput : (empty.afterAll s o ds).put s o d.descriptor d.place with
    | ok m c' =>
      exact .inl ⟨m, by rw [afterAll, List.foldl_cons, List.foldl_nil, after_of_ok hput]⟩
    | error f c' =>
      obtain ⟨rfl, hrefuses⟩ := put_eq_error_iff.mp hput
      exact .inr ⟨f, rfl, hrefuses, after_of_error hput⟩

end Catalog

end MessageExtraction
