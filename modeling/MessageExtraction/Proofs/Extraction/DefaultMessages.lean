import MessageExtraction.Proofs.Extraction.Declarations
import MessageExtraction.Proofs.Pattern.Canonical

namespace MessageExtraction

open Pattern

/-- A text that is the canonical form of some message. -/
def IsCanonicalForm (t : Text) : Prop := ∃ m, canonicalForm m = .ok t

/-- Its default message, if it is a text, is a canonical form. -/
def Descriptor.HasCanonicalForm (d : Descriptor) : Prop :=
  ∀ t, d.defaultMessage = .text t → IsCanonicalForm t

/-- The default messages recorded so far are canonical forms. -/
def Extraction.HoldsCanonicalForms (x : Extraction) : Prop :=
  ∀ m ∈ x.messages, ∀ t ∈ m.defaultMessage, IsCanonicalForm t

namespace Source

variable {s : Source}

theorem canonicalForm_of_canonical {p anchor : Option Place} {isAttribute : Bool} {m t : Text}
    (h : s.canonical p isAttribute anchor m = .ok t) : canonicalForm m = .ok t := by
  rw [canonical] at h
  split at h
  · rename_i es hes
    exact canonicalForm_eq_ok.mpr ⟨es, hes, Except.ok.inj h⟩
  · simp at h
  · simp at h

theorem isCanonicalForm_of_templateValue {p anchor : Option Place} {isAttribute : Bool} {t : Text}
    (h : s.templateValue p isAttribute anchor = .ok t) : IsCanonicalForm t := by
  rw [templateValue] at h
  obtain ⟨v, -, h⟩ := bind_eq_ok.mp h
  split at h
  · exact ⟨_, canonicalForm_of_canonical h⟩
  · obtain ⟨shown, -, h⟩ := bind_eq_ok.mp h
    exact absurd h throw_ne_ok

theorem hasCanonicalForm_evaluateField {d d' : Descriptor} {f : Descriptor.Field}
    {w : Descriptor.Written} (hd : d.HasCanonicalForm) (h : s.evaluateField d f w = .ok d') :
    d'.HasCanonicalForm := by
  cases f with
  | defaultMessage =>
    obtain ⟨t, ht, h⟩ := bind_eq_ok.mp h
    rw [← pure_eq_ok.mp h]
    rintro u ⟨⟩
    exact isCanonicalForm_of_templateValue ht
  | id | description =>
    obtain ⟨v, -, h⟩ := bind_eq_ok.mp h
    rw [← pure_eq_ok.mp h]
    exact hd

theorem hasCanonicalForm_evaluateDescriptor {fields : List (Descriptor.Field × Descriptor.Written)}
    {d : Descriptor} (h : s.evaluateDescriptor fields = .ok d) : d.HasCanonicalForm := by
  refine foldlM_keeps (P := Descriptor.HasCanonicalForm) ?_ ?_ h
  · rintro t ⟨⟩
  · rintro d ⟨f, w⟩ d' - hd h
    exact hasCanonicalForm_evaluateField hd h

end Source

namespace Extraction

variable {x : Extraction} {p : Place} {d : Declaration}

theorem hasCanonicalForm_of_declared? {s : Source} {o : Options}
    (h : s.declared? o p = .ok (some d)) : d.descriptor.HasCanonicalForm := by
  obtain ⟨-, h⟩ | ⟨-, _, _, id, -, -, rfl⟩ := Source.declared?_eq_some h
  · obtain ⟨fields, descriptor, -, hd, rfl⟩ := Source.attributeDeclaration_eq_some h
    exact Source.hasCanonicalForm_evaluateDescriptor hd
  · rintro t ⟨⟩

theorem messages_mark (x : Extraction) (p : Place) : (x.mark p).messages = x.messages := by
  rw [mark]
  split <;> rfl

theorem messages_remove (x : Extraction) (p : Place) : (x.remove p).messages = x.messages := by
  rw [remove]
  split <;> rfl

theorem messages_settle (x : Extraction) (c : Catalog) (d : Declaration) :
    (x.settle c d).messages = c.messages := by
  rw [settle, messages_mark]
  cases d.description with
  | none => rfl
  | some a => exact messages_remove _ a

theorem holdsCanonicalForms_settle {c c' : Catalog} {m : Message} (hx : x.HoldsCanonicalForms)
    (hc : x.catalog = some c) (hd : d.descriptor.HasCanonicalForm)
    (hput : c.put x.source x.options d.descriptor d.place = .ok m c') :
    (x.settle c' d).HoldsCanonicalForms := by
  have hmessages : ∀ m ∈ c.messages, ∀ t ∈ m.defaultMessage, IsCanonicalForm t := by
    simpa [HoldsCanonicalForms, messages, hc] using hx
  rw [HoldsCanonicalForms, messages_settle]
  obtain ⟨id, -, -, ⟨e, -, -, -, rfl⟩ | ⟨-, hm, rfl⟩⟩ := Catalog.put_cases hput
  · exact hmessages
  · have hlast : ∀ t ∈ m.defaultMessage, IsCanonicalForm t := by
      intro t ht
      have hs := Catalog.defaultMessage_of_store hm
      cases hv : d.descriptor.defaultMessage <;>
        simp_all [Catalog.storedText, Descriptor.HasCanonicalForm]
    have hsplit : Catalog.messages ⟨c.entries ++ [⟨m, x.source.startOf d.place⟩]⟩ =
        c.messages ++ [m] := by
      simp [Catalog.messages]
    rw [hsplit, List.forall_mem_append, List.forall_mem_singleton]
    exact ⟨hmessages, hlast⟩

theorem holdsCanonicalForms_visit {y : Extraction} (hx : x.HoldsCanonicalForms)
    (h : x.visit p = .ok () y) : y.HoldsCanonicalForms := by
  have hvisited := x.visited_visit p
  rw [h] at hvisited
  cases hvisited with
  | unchanged | warned => exact hx
  | recorded hc _ hd hput =>
    exact holdsCanonicalForms_settle hx hc (hasCanonicalForm_of_declared? hd) hput

theorem holdsCanonicalForms_visitAll {x : Extraction} (hx : x.HoldsCanonicalForms)
    (ps : List Place) : (x.visitAll ps).1.HoldsCanonicalForms := by
  induction ps generalizing x with
  | nil => exact hx
  | cons p ps ih =>
    rw [visitAll]
    split
    · exact ih (holdsCanonicalForms_visit hx ‹_›)
    · rename_i e y hy
      exact eq_of_visit_eq_error hy ▸ hx

theorem holdsCanonicalForms_traverse (s : Source) (o : Options) :
    (fresh s o).traverse.1.HoldsCanonicalForms := by
  refine holdsCanonicalForms_visitAll ?_ _
  rintro m ⟨⟩

end Extraction

/-- The canonical form of a message has a canonical form, itself, exactly when the pattern that it was
printed from can be read back; and every default message that a visit of a source has recorded is
printed from the pattern of some message, so that this decides whether it is its own canonical form. -/
theorem canonical_form_stable_iff (m : Text) (es : List Element) (s : Source) (o : Options) :
    (parse m = .ok es → canonicalForm m = .ok (print es) ∧
      (canonicalForm (print es) = .ok (print es) ↔ ∀ e ∈ within es, e.isReadBack = true)) ∧
    ∀ message ∈ (Extraction.fresh s o).traverse.1.messages, ∀ t ∈ message.defaultMessage,
      ∃ m es, parse m = .ok es ∧ t = print es ∧
        (canonicalForm t = .ok t ↔ ∀ e ∈ within es, e.isReadBack = true) := by
  constructor
  · intro h
    exact ⟨canonicalForm_eq_ok.mpr ⟨es, h, rfl⟩, canonicalForm_print_eq_ok_iff h⟩
  · intro message hm t ht
    obtain ⟨m, hc⟩ := Extraction.holdsCanonicalForms_traverse s o message hm t ht
    obtain ⟨es, hes, rfl⟩ := canonicalForm_eq_ok.mp hc
    exact ⟨m, es, hes, rfl, canonicalForm_print_eq_ok_iff hes⟩

theorem nestedChoice_canonical :
    parse "\x7bn,plural,=0\x7bnone\x7dother\x7b\\#\x7bg,select,f\x7bher\x7dother\x7btheir\x7d\x7d\x7d\x7d" =
      .ok nestedChoice ∧ canonicalForm (print nestedChoice) = .ok (print nestedChoice) := by
  have h : parse "\x7bn,plural,=0\x7bnone\x7dother\x7b\\#\x7bg,select,f\x7bher\x7dother\x7btheir\x7d\x7d\x7d\x7d" =
      .ok nestedChoice := by cbv
  have hs := (canonical_form_stable_iff _ _ ⟨[], [], [], default, false⟩ .standard).1 h
  exact ⟨h, hs.2.mpr (by decide)⟩

/-- An offset is printed with a comma behind it, which is no part of an offset that is read. -/
theorem offset_form_not_canonical :
    canonicalForm "\x7bn, plural, offset:1 other \x7bx\x7d\x7d" =
      .ok "\x7bn, plural, offset:1, other \x7bx\x7d\x7d" ∧
    canonicalForm "\x7bn, plural, offset:1, other \x7bx\x7d\x7d" =
      .error (.malformed ⟨.selector, some CodePoint.comma, 20, 1, 21⟩) := by
  constructor <;> cbv

end MessageExtraction
