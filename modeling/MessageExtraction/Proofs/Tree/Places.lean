import MessageExtraction.Tree.Source

namespace MessageExtraction

namespace Node

/-- A sign or a word of the grammar, whose kind is its text. -/
def token (text : String) (start stop : Nat) : Node := ⟨text, false, start, stop, [], []⟩

/-- A named node without children. -/
def leaf (kind : String) (start stop : Nat) : Node := ⟨kind, true, start, stop, [], []⟩

end Node

namespace Place

theorem unwrapped_of_not_isWrapper {p : Place} (h : p.isWrapper = false) : p.unwrapped = p := by
  rw [unwrapped, if_neg (by simp [h])]

theorem subtree_eq (p : Place) : p.subtree = p :: p.children.flatMap subtree := by
  rw [subtree, List.flatMap_subtype (g := subtree) fun _ _ ↦ rfl, List.unattach_attach]

theorem mem_subtree_iff {p q : Place} :
    q ∈ p.subtree ↔ q = p ∨ ∃ c ∈ p.children, q ∈ c.subtree := by
  rw [subtree_eq, List.mem_cons, List.mem_flatMap]

theorem self_mem_subtree (p : Place) : p ∈ p.subtree := mem_subtree_iff.mpr (.inl rfl)

theorem mem_subtree_of_mem_children {p c : Place} (h : c ∈ p.children) : c ∈ p.subtree :=
  mem_subtree_iff.mpr (.inr ⟨c, h, self_mem_subtree c⟩)

theorem mem_subtree_trans {p q r : Place} (hq : q ∈ p.subtree) (hr : r ∈ q.subtree) :
    r ∈ p.subtree := by
  obtain rfl | ⟨c, hc, hq⟩ := mem_subtree_iff.mp hq
  · exact hr
  · have := sizeOf_node_lt hc
    exact mem_subtree_iff.mpr (.inr ⟨c, hc, mem_subtree_trans hq hr⟩)
termination_by sizeOf p.node

/-- What is below a place is the place itself or a child of something below it. -/
theorem subtree_cases {p q : Place} (h : q ∈ p.subtree) :
    q = p ∨ ∃ r ∈ p.subtree, q ∈ r.children := by
  obtain rfl | ⟨c, hc, hq⟩ := mem_subtree_iff.mp h
  · exact .inl rfl
  · have := sizeOf_node_lt hc
    obtain rfl | ⟨r, hr, hq⟩ := subtree_cases hq
    · exact .inr ⟨p, self_mem_subtree p, hc⟩
    · exact .inr ⟨r, mem_subtree_trans (mem_subtree_of_mem_children hc) hr, hq⟩
termination_by sizeOf p.node

theorem not_mem_subtree_of_path {p q : Place}
    (h : (p.subtree.map path).contains q.path = false) : q ∉ p.subtree := by
  intro hq
  rw [List.contains_iff_mem.mpr (List.mem_map_of_mem hq)] at h
  cases h

theorem mem_children_iff {p c : Place} :
    c ∈ p.children ↔ ∃ i, p.node.children[i]? = some c.node ∧ c.above = (p.node, i) :: p.above := by
  rw [children, List.mem_mapIdx]
  constructor
  · rintro ⟨i, hi, rfl⟩
    exact ⟨i, List.getElem?_eq_getElem hi, rfl⟩
  · rintro ⟨i, hi, ha⟩
    obtain ⟨h, hc⟩ := List.getElem?_eq_some_iff.mp hi
    refine ⟨i, h, ?_⟩
    cases c
    cases ha
    cases hc
    rfl

/-- A place has one parent. -/
theorem eq_of_mem_children {p q c : Place} (hp : c ∈ p.children) (hq : c ∈ q.children) : p = q := by
  obtain ⟨i, -, hi⟩ := mem_children_iff.mp hp
  obtain ⟨j, -, hj⟩ := mem_children_iff.mp hq
  rw [hi] at hj
  cases p
  cases q
  cases hj
  rfl

end Place

namespace Source

open Place

variable {s : Source} {p q : Place}

theorem mem_places_of_mem_children (hp : p ∈ s.places) (hq : q ∈ p.children) : q ∈ s.places :=
  mem_subtree_trans hp (mem_subtree_of_mem_children hq)

theorem mem_places_of_getElem? {m n : Node} {i : Nat} {above : List (Node × Nat)}
    (hp : ⟨m, above⟩ ∈ s.places) (hn : m.children[i]? = some n) : ⟨n, (m, i) :: above⟩ ∈ s.places :=
  mem_places_of_mem_children hp (mem_children_iff.mpr ⟨i, hn, rfl⟩)

theorem mem_places_of_mem_parts (hp : p ∈ s.places) (hq : q ∈ p.parts) : q ∈ s.places :=
  mem_places_of_mem_children hp (mem_children_of_mem_parts hq)

theorem mem_places_of_field? {name : String} (hp : p ∈ s.places) (hq : p.field? name = some q) :
    q ∈ s.places :=
  mem_places_of_mem_children hp (mem_children_of_field? hq)

/-- The nodes around a place of a source are places of it. -/
theorem mem_places_of_mem_ancestors (hp : p ∈ s.places) (hq : q ∈ p.ancestors) : q ∈ s.places := by
  obtain ⟨n, above⟩ := p
  induction above generalizing n with
  | nil => cases hq
  | cons step above ih =>
    obtain ⟨m, i⟩ := step
    obtain hroot | ⟨r, hr, hc⟩ := subtree_cases hp
    · cases hroot
    · obtain ⟨j, -, hj⟩ := mem_children_iff.mp hc
      have hparent : (⟨m, above⟩ : Place) ∈ s.places := by
        cases r
        cases hj
        exact hr
      obtain rfl | hq := List.mem_cons.mp hq
      · exact hparent
      · exact ih m hparent hq

/-- The path of a place says which place of a source it is. -/
theorem eq_of_path_eq (hp : p ∈ s.places) (hq : q ∈ s.places) (h : p.path = q.path) : p = q := by
  obtain ⟨n, above⟩ := p
  induction above generalizing n q with
  | nil =>
    obtain ⟨m, _ | ⟨step, above⟩⟩ := q
    · obtain hn | ⟨r, -, hr⟩ := subtree_cases hp
      · obtain hm | ⟨r, -, hr⟩ := subtree_cases hq
        · rw [hn, hm]
        · obtain ⟨j, -, hj⟩ := mem_children_iff.mp hr
          cases hj
      · obtain ⟨j, -, hj⟩ := mem_children_iff.mp hr
        cases hj
    · cases h
  | cons step above ih =>
    obtain ⟨m, _ | ⟨step', above'⟩⟩ := q
    · cases h
    · obtain hroot | ⟨r, hr, hc⟩ := subtree_cases hp
      · cases hroot
      obtain hroot | ⟨r', hr', hc'⟩ := subtree_cases hq
      · cases hroot
      obtain ⟨i, hi, ha⟩ := mem_children_iff.mp hc
      obtain ⟨j, hj, ha'⟩ := mem_children_iff.mp hc'
      obtain ⟨node, above⟩ := r
      obtain ⟨node', above'⟩ := r'
      cases ha
      cases ha'
      obtain ⟨hij, htail⟩ := List.cons.inj h
      have hparent := ih hr' node hr htail
      cases hparent
      cases hij
      rw [hi] at hj
      cases hj
      rfl

end Source

end MessageExtraction
