import MessageExtraction.Proofs.Scope.Resolution

namespace MessageExtraction.Source

open Binding Place

variable {s : Source} {p : Place} {b : Binding}

/-- A declarator of the source gives the name of a binding an initial value. -/
def Declares (s : Source) (b : Binding) (value : Place) : Prop :=
  ∃ d ∈ s.places, d.field? "name" = some b.place ∧ d.field? "value" = some value

theorem declares_of_lookup {name : Text} {value : Place} (hp : p ∈ s.places)
    (h : s.lookup p name = .ok (some b)) (hv : b.value? = some value) : s.Declares b value := by
  obtain ⟨scope, h⟩ := (lookup_eq_ok_some_iff hp).mp h
  obtain ⟨keyword, hk⟩ := kind_of_value? hv
  obtain ⟨d, hd, -, hname, hvalue⟩ := h.introduces.1.exists_initializes hk
  have hscope : scope ∈ s.root.subtree := mem_places_of_mem_ancestors hp h.around
  exact ⟨d, mem_subtree_trans hscope hd, hname, hvalue⟩

theorem Declares.place_mem {value : Place} (h : s.Declares b value) : b.place ∈ s.places := by
  obtain ⟨d, hd, hname, -⟩ := h
  exact mem_places_of_field? hd hname

theorem Declares.value_mem {value : Place} (h : s.Declares b value) : value ∈ s.places := by
  obtain ⟨d, hd, -, hvalue⟩ := h
  exact mem_places_of_field? hd hvalue

/-- A name that is declared at a place has one initial value. -/
theorem Declares.unique {c : Binding} {v w : Place} (hb : s.Declares b v) (hc : s.Declares c w)
    (h : b.place.path = c.place.path) : v = w := by
  have hplace : b.place = c.place := eq_of_path_eq hb.place_mem hc.place_mem h
  obtain ⟨d, -, hname, hvalue⟩ := hb
  obtain ⟨e, -, hname', hvalue'⟩ := hc
  have hd := mem_children_of_field? hname
  rw [hplace] at hd
  obtain rfl := eq_of_mem_children hd (mem_children_of_field? hname')
  rw [hvalue] at hvalue'
  exact Option.some.inj hvalue'

end MessageExtraction.Source
