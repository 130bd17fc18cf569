import MessageExtraction.Catalog
import MessageExtraction.Proofs.Result

namespace MessageExtraction.Catalog

variable {s : Source} {o : Options} {d : Descriptor} {p : Place}

/-- Why a declaration is refused: it has no id, it says something else than what is stored under its
id, it lacks a description that it has to have, or it says what no message can hold. -/
inductive Refuses (c : Catalog) (s : Source) (o : Options) (d : Descriptor) (p : Place) :
    Failure → Prop
  | invalidId :
      MessageId.ofValue? d.id = none → Refuses c s o d p (s.complain p .invalidId)
  | conflict {id : MessageId} {e : Entry} :
      MessageId.ofValue? d.id = some id → c.find? id.toValue = some e →
      agrees e.message d = false → Refuses c s o d p (conflict s id e.origin p)
  | missingDescription {id : MessageId} :
      MessageId.ofValue? d.id = some id →
      (∀ e, c.find? id.toValue = some e → agrees e.message d = true) →
      (o.enforceDescriptions && isMissing d.description) = true →
      Refuses c s o d p (s.complain p .missingDescription)
  | invalidDescriptor {id : MessageId} :
      MessageId.ofValue? d.id = some id → c.find? id.toValue = none →
      (o.enforceDescriptions && isMissing d.description) = false →
      (d.description.toJson? = none ∨ ∀ t, d.defaultMessage ≠ textValue t) →
      Refuses c s o d p (.fault .invalidDescriptor)

theorem storedText_eq_ok_iff {v : Value} {t : Option Text} :
    storedText v = .ok t ↔ v = textValue t := by
  cases v <;> cases t <;> simp [storedText, textValue]

theorem storedJson_eq_ok_iff {v : Value} {j : Json} :
    storedJson v = .ok j ↔ v.toJson? = some j := by
  rw [storedJson]
  cases v.toJson? <;> simp

theorem storedText_of_ne {v : Value} (h : ∀ t, v ≠ textValue t) :
    storedText v = .error (.fault .invalidDescriptor) := by
  cases v with
  | text t => exact absurd rfl (h (some t))
  | null => exact absurd rfl (h none)
  | _ => rfl

theorem store_of_unstorable {id : MessageId}
    (h : d.description.toJson? = none ∨ ∀ t, d.defaultMessage ≠ textValue t) :
    store s o id d p = .error (.fault .invalidDescriptor) := by
  cases hj : d.description.toJson? with
  | none =>
    rw [store, storedJson, hj]
    rfl
  | some j =>
    have ht := h.resolve_left (by simp [hj])
    rw [store, storedJson, hj, storedText_of_ne ht]
    rfl

theorem unstorable_of_store {id : MessageId} {f : Failure} (h : store s o id d p = .error f) :
    d.description.toJson? = none ∨ ∀ t, d.defaultMessage ≠ textValue t := by
  cases hj : d.description.toJson? with
  | none => exact .inl rfl
  | some j =>
    right
    intro t ht
    rw [store, storedJson_eq_ok_iff.mpr hj, ok_bind, storedText_eq_ok_iff.mpr ht, ok_bind] at h
    split at h <;> cases h

theorem put_of_no_id {c : Catalog} (hid : MessageId.ofValue? d.id = none) :
    c.put s o d p = .error (s.complain p .invalidId) c := by
  rw [put, declare, hid]
  rfl

theorem put_of_conflict {c : Catalog} {id : MessageId} {e : Entry}
    (hid : MessageId.ofValue? d.id = some id) (he : c.find? id.toValue = some e)
    (ha : agrees e.message d = false) : c.put s o d p = .error (conflict s id e.origin p) c := by
  simp only [put, declare, hid, EStateM.run_bind, EStateM.run_get, he, ha]
  rfl

theorem put_of_missing {c : Catalog} {id : MessageId} (hid : MessageId.ofValue? d.id = some id)
    (ha : ∀ e, c.find? id.toValue = some e → agrees e.message d = true)
    (hd : (o.enforceDescriptions && isMissing d.description) = true) :
    c.put s o d p = .error (s.complain p .missingDescription) c := by
  simp only [put, declare, hid, EStateM.run_bind, EStateM.run_get]
  cases he : c.find? id.toValue with
  | none =>
    simp only [hd]
    rfl
  | some e =>
    simp only [ha e he, hd]
    rfl

theorem put_of_stored {c : Catalog} {id : MessageId} {e : Entry}
    (hid : MessageId.ofValue? d.id = some id) (he : c.find? id.toValue = some e)
    (ha : agrees e.message d = true)
    (hd : (o.enforceDescriptions && isMissing d.description) = false) :
    c.put s o d p = .ok e.message c := by
  simp only [put, declare, hid, EStateM.run_bind, EStateM.run_get, he, ha, hd]
  rfl

theorem put_of_new {c : Catalog} {id : MessageId} (hid : MessageId.ofValue? d.id = some id)
    (he : c.find? id.toValue = none)
    (hd : (o.enforceDescriptions && isMissing d.description) = false) :
    c.put s o d p = match store s o id d p with
      | .ok m => .ok m ⟨c.entries ++ [⟨m, s.startOf p⟩]⟩
      | .error f => .error f c := by
  simp only [put, declare, hid, EStateM.run_bind, EStateM.run_get, he, hd]
  cases store s o id d p <;> rfl

/-- How the recording of a declaration ends: it is refused without effect, it says what a stored message
says, or it is stored as a new one. -/
inductive Puts (c : Catalog) (s : Source) (o : Options) (d : Descriptor) (p : Place) :
    EStateM.Result Failure Catalog Message → Prop
  | refused {f : Failure} : c.Refuses s o d p f → Puts c s o d p (.error f c)
  | stored {id : MessageId} {e : Entry} :
      MessageId.ofValue? d.id = some id → c.find? id.toValue = some e → agrees e.message d = true →
      (o.enforceDescriptions && isMissing d.description) = false → Puts c s o d p (.ok e.message c)
  | new {id : MessageId} {m : Message} :
      MessageId.ofValue? d.id = some id → c.find? id.toValue = none → store s o id d p = .ok m →
      (o.enforceDescriptions && isMissing d.description) = false →
      Puts c s o d p (.ok m ⟨c.entries ++ [⟨m, s.startOf p⟩]⟩)

theorem puts_put (c : Catalog) (s : Source) (o : Options) (d : Descriptor) (p : Place) :
    c.Puts s o d p (c.put s o d p) := by
  cases hid : MessageId.ofValue? d.id with
  | none =>
    rw [put_of_no_id hid]
    exact .refused (.invalidId hid)
  | some id =>
    by_cases ha : ∀ e, c.find? id.toValue = some e → agrees e.message d = true
    · cases hd : o.enforceDescriptions && isMissing d.description with
      | true =>
        rw [put_of_missing hid ha hd]
        exact .refused (.missingDescription hid ha hd)
      | false =>
        cases he : c.find? id.toValue with
        | some e =>
          rw [put_of_stored hid he (ha e he) hd]
          exact .stored hid he (ha e he) hd
        | none =>
          rw [put_of_new hid he hd]
          cases hm : store s o id d p with
          | ok m => exact .new hid he hm hd
          | error f =>
            have hstore := unstorable_of_store hm
            rw [store_of_unstorable hstore] at hm
            cases hm
            exact .refused (.invalidDescriptor hid he hd hstore)
    · simp only [not_forall, Bool.not_eq_true] at ha
      obtain ⟨e, he, ha⟩ := ha
      rw [put_of_conflict hid he ha]
      exact .refused (.conflict hid he ha)

/-- A declaration that is accepted says what a stored message says, or is stored as a new one. -/
theorem put_cases {c c' : Catalog} {m : Message} (h : c.put s o d p = .ok m c') :
    ∃ id, MessageId.ofValue? d.id = some id ∧
      (o.enforceDescriptions = true → isMissing d.description = false) ∧
      ((∃ e, c.find? id.toValue = some e ∧ agrees e.message d = true ∧ m = e.message ∧ c' = c) ∨
        (c.find? id.toValue = none ∧ store s o id d p = .ok m ∧
          c' = ⟨c.entries ++ [⟨m, s.startOf p⟩]⟩)) := by
  have hdescribed (hd : (o.enforceDescriptions && isMissing d.description) = false)
      (ho : o.enforceDescriptions = true) : isMissing d.description = false := by
    simpa [ho] using hd
  have hputs := c.puts_put s o d p
  rw [h] at hputs
  cases hputs with
  | stored hid he ha hd => exact ⟨_, hid, hdescribed hd, .inl ⟨_, he, ha, rfl, rfl⟩⟩
  | new hid he hm hd => exact ⟨_, hid, hdescribed hd, .inr ⟨he, hm, rfl⟩⟩

/-- A declaration is refused for one of four reasons, and the catalog is then as it was; otherwise it is
accepted. -/
theorem put_eq_error_iff {c c' : Catalog} {f : Failure} :
    c.put s o d p = .error f c' ↔ c' = c ∧ c.Refuses s o d p f := by
  constructor
  · intro h
    have hputs := c.puts_put s o d p
    rw [h] at hputs
    cases hputs with
    | refused hrefuses => exact ⟨rfl, hrefuses⟩
  · rintro ⟨rfl, h⟩
    cases h with
    | invalidId hid => exact put_of_no_id hid
    | conflict hid he ha => exact put_of_conflict hid he ha
    | missingDescription hid ha hd => exact put_of_missing hid ha hd
    | invalidDescriptor hid he hd h => rw [put_of_new hid he hd, store_of_unstorable h]

/-- A declaration that is refused leaves the catalog as it was. -/
theorem eq_of_put_eq_error {c c' : Catalog} {f : Failure} (h : c.put s o d p = .error f c') : c' = c :=
  (put_eq_error_iff.mp h).1

theorem defaultMessage_of_store {id : MessageId} {m : Message} (h : store s o id d p = .ok m) :
    storedText d.defaultMessage = .ok m.defaultMessage := by
  rw [store] at h
  obtain ⟨j, -, h⟩ := bind_eq_ok.mp h
  obtain ⟨t, ht, h⟩ := bind_eq_ok.mp h
  split at h
  · rw [← pure_eq_ok.mp h, ht]
  · rw [← pure_eq_ok.mp h, ht]

end MessageExtraction.Catalog
