import MessageExtraction.Proofs.Extraction.Declarations
import MessageExtraction.Proofs.Folding.Exactness

/-!
The attributes that an element declares a message by, and the nodes of the descriptions among them.
-/

namespace MessageExtraction.Source

open Extraction Descriptor

variable {s : Source} {o : Options} {p a name : Place}

theorem mem_insertWritten {f g : Field} {w v : Written} {fields : List (Field × Written)}
    (h : (g, v) ∈ insertWritten f w fields) : v = w ∨ (g, v) ∈ fields := by
  induction fields with
  | nil =>
    obtain h := List.mem_singleton.mp h
    exact .inl (Prod.mk.inj h).2
  | cons head fields ih =>
    rw [insertWritten] at h
    split at h
    · obtain h | h := List.mem_cons.mp h
      · exact .inl (Prod.mk.inj h).2
      · exact .inr (List.mem_cons_of_mem _ h)
    · obtain h | h := List.mem_cons.mp h
      · exact .inr (List.mem_cons.mpr (.inl h))
      · exact (ih h).imp_right (List.mem_cons_of_mem _)

theorem mem_of_collectFields {written : List Written} {fields : List (Field × Written)}
    (h : s.collectFields written = .ok fields) : ∀ f w, (f, w) ∈ fields → w ∈ written := by
  rw [collectFields] at h
  refine foldlM_keeps (P := fun fields ↦ ∀ f w, (f, w) ∈ fields → w ∈ written)
    (fun _ _ h ↦ absurd h List.not_mem_nil) ?_ h
  intro fields w fields' hw hfields h f v hv
  obtain ⟨name, -, h⟩ := bind_eq_ok.mp h
  obtain ⟨field, -, h⟩ := bind_eq_ok.mp h
  split at h
  · rw [← pure_eq_ok.mp h] at hv
    obtain rfl | hv := mem_insertWritten hv
    · exact hw
    · exact hfields f v hv
  · rw [← pure_eq_ok.mp h] at hv
    exact hfields f v hv

/-- The name of an attribute is a part of it. -/
theorem parent?_of_mem_attributes {w : Written} (h : w ∈ attributes p)
    (ha : w.name.parent? = some a) : a ∈ p.parts := by
  obtain ⟨b, hb, hw⟩ := List.mem_filterMap.mp h
  split at hw
  · cases hw
  · rename_i name rest hparts
    obtain rfl := Option.some.inj hw
    have hname : name ∈ b.children :=
      Place.mem_children_of_mem_parts (hparts ▸ List.mem_cons_self)
    obtain ⟨i, -, habove⟩ := Place.mem_children_iff.mp hname
    rw [Place.parent?, habove] at ha
    rw [← Option.some.inj ha]
    exact (List.mem_filter.mp hb).1

/-- The description that is taken out is an attribute of the element. -/
theorem description_mem_parts {e : Declaration} (h : s.declared? o p = .ok (some e))
    (ha : e.description = some a) : a ∈ p.parts := by
  obtain ⟨-, h⟩ | ⟨-, first, rest, id, -, -, rfl⟩ := declared?_eq_some h
  · obtain ⟨fields, descriptor, hfields, -, rfl⟩ := attributeDeclaration_eq_some h
    obtain ⟨w, hw, ha⟩ := Option.bind_eq_some_iff.mp ha
    obtain ⟨before, after, hsplit, -⟩ := List.lookup_eq_some_iff.mp hw
    have hmem : (Field.description, w) ∈ fields := by
      rw [hsplit]
      exact List.mem_append_right _ List.mem_cons_self
    exact parent?_of_mem_attributes (mem_of_collectFields hfields _ w hmem) ha
  · cases ha

/-- The descriptions of the elements that declare something. -/
def descriptions (s : Source) (o : Options) : List Place :=
  (s.declaredBy o s.places).filterMap (·.description)

theorem mem_places_of_mem_descriptions (h : a ∈ s.descriptions o) : a ∈ s.places := by
  obtain ⟨e, he, ha⟩ := List.mem_filterMap.mp h
  obtain ⟨p, hp, hd⟩ := List.mem_filterMap.mp he
  split at hd
  · rename_i outcome hdeclared
    rw [hd] at hdeclared
    exact mem_places_of_mem_parts hp (description_mem_parts hdeclared ha)
  · cases hd

theorem elementDeclaration_of_component {component : Text} (hname : p.field? "name" = some name)
    (hresolve : s.resolveImport name = .ok (some (o.moduleName, component)))
    (hcomponent : component ∈ components) :
    s.elementDeclaration o p = s.attributeDeclaration p := by
  simp only [elementDeclaration, hname, hresolve]
  exact if_pos ⟨rfl, hcomponent⟩

theorem elementDeclaration_of_unresolved (hname : p.field? "name" = some name)
    (hresolve : s.resolveImport name = .ok none) : s.elementDeclaration o p = .ok none := by
  simp only [elementDeclaration, hname, hresolve]
  rfl

theorem fieldName_of_text {t : Text} (hk : nameKinds.contains p.kind = true)
    (ht : s.textOf p = .ok t) : s.fieldName p = .ok (.text t) := by
  rw [fieldName, if_pos hk, ht]
  rfl

theorem fieldValue_of_text {q : Place} {t : Text} (hp : s.embedded p = .ok q)
    (hq : s.fold q = .ok (.text t)) : s.fieldValue (some p) = .ok (.text (Text.trim t)) := by
  rw [fieldValue, hp, ok_bind, constantValue, hq]
  rfl

theorem fieldValue_of_string {w : Written} {t : Text} (hw : w.value = some w.anchor)
    (hk : w.anchor.kind = "string") (ht : s.stringValue w.anchor = .ok t) :
    s.fieldValue w.value = .ok (.text (Text.trim t)) := by
  have hembedded : s.embedded w.anchor = .ok w.anchor := by
    rw [embedded, if_neg (by rw [hk]; decide)]
  have hfold : s.fold w.anchor = .ok (.text t) := by
    rw [fold, foldWith_eq_foldFrom]
    exact Folding.Judgement.holds_string hk ht
  rw [hw]
  exact fieldValue_of_text hembedded hfold

/-- What an element with an id, a default message and a description declares if they are texts. -/
theorem attributeDeclaration_of_texts {a b c : Written} {id message description : Text}
    {pattern : Pattern} (hwritten : attributes p = [a, b, c])
    (ha : s.fieldName a.name = .ok (.text "id"))
    (hb : s.fieldName b.name = .ok (.text "defaultMessage"))
    (hc : s.fieldName c.name = .ok (.text "description"))
    (hid : s.fieldValue a.value = .ok (.text id))
    (hmessage : s.fieldValue b.value = .ok (.text message))
    (hpattern : Pattern.parse message = .ok pattern)
    (hdescription : s.fieldValue c.value = .ok (.text description)) :
    s.attributeDeclaration p = .ok (some
      ⟨⟨.text id, .text description, .text (Pattern.print pattern)⟩, p, c.name.parent?⟩) := by
  have hfields : s.collectFields (attributes p) =
      .ok [(.id, a), (.defaultMessage, b), (.description, c)] := by
    simp only [hwritten, collectFields, List.foldlM_cons, List.foldlM_nil, ha, hb, hc, ok_bind]
    rfl
  have htemplate : s.templateValue b.value true (some b.anchor) = .ok (Pattern.print pattern) := by
    rw [templateValue, hmessage, ok_bind]
    simp only [canonical, hpattern]
  have hdescriptor : s.evaluateDescriptor [(.id, a), (.defaultMessage, b), (.description, c)] =
      .ok ⟨.text id, .text description, .text (Pattern.print pattern)⟩ := by
    simp only [evaluateDescriptor, List.foldlM_cons, List.foldlM_nil, evaluateField, hid, htemplate,
      hdescription, ok_bind]
    rfl
  rw [attributeDeclaration, hfields, ok_bind]
  simp only [List.lookup]
  rw [hdescriptor]
  rfl

end MessageExtraction.Source
