import MessageExtraction.Proofs.Tree.Ancestors
import MessageExtraction.Scope.Declarations

/-!
Ways down a tree from a scope to the names that it may know, which enter no function.
-/

namespace MessageExtraction.Place

variable {p q c x f : Place}

/-- A way down that enters no function. -/
inductive Opens : Place → Place → Prop
  | refl (p : Place) : Opens p p
  | child {p c q : Place} : c ∈ p.children → c.isFunction = false → Opens c q → Opens p q

theorem Opens.trans {r : Place} (h : p.Opens q) (h' : q.Opens r) : p.Opens r := by
  induction h with
  | refl p => exact h'
  | child hc hf _ ih => exact .child hc hf (ih h')

theorem Opens.of_child (hc : c ∈ p.children) (hf : c.isFunction = false) : p.Opens c :=
  .child hc hf (.refl c)

theorem Opens.mem_subtree (h : p.Opens q) : q ∈ p.subtree := by
  induction h with
  | refl p => exact self_mem_subtree p
  | child hc _ _ ih => exact mem_subtree_trans (mem_subtree_of_mem_children hc) ih

/-- A way down that enters no function, except for a last one of which the name is taken. -/
def Exposes (p x : Place) : Prop :=
  ∃ q, p.Opens q ∧ (x ∈ q.children ∨ ∃ f ∈ q.children, f.field? "name" = some x)

theorem Exposes.of_child (h : p.Opens q) (hx : x ∈ q.children) : p.Exposes x := ⟨q, h, .inl hx⟩

theorem Opens.exposes (h : p.Opens q) (hx : q.Exposes x) : p.Exposes x := by
  obtain ⟨r, hr, hx⟩ := hx
  exact ⟨r, h.trans hr, hx⟩

theorem Opens.exposes_of_child (h : c.Opens x) (hc : c ∈ p.children) (hf : c.isFunction = false) :
    p.Exposes x := by
  induction h generalizing p with
  | refl c => exact ⟨p, .refl p, .inl hc⟩
  | child hd hdf _ ih => exact (Opens.of_child hc hf).exposes (ih hd hdf)

theorem Exposes.mem_subtree (h : p.Exposes x) : x ∈ p.subtree := by
  obtain ⟨q, hq, hx | ⟨f, hf, hx⟩⟩ := h
  · exact mem_subtree_trans hq.mem_subtree (mem_subtree_of_mem_children hx)
  · exact mem_subtree_trans hq.mem_subtree (mem_subtree_trans (mem_subtree_of_mem_children hf)
      (mem_subtree_of_mem_children (mem_children_of_field? hx)))

theorem Exposes.name_of_isBetween (h : p.Exposes x) (hf : f.IsBetween p x)
    (hfunction : f.isFunction = true) : f.field? "name" = some x := by
  obtain ⟨q, hq, hx⟩ := h
  induction hq with
  | refl p =>
    obtain hx | ⟨g, hg, hx⟩ := hx
    · exact absurd hf (not_isBetween_child hx)
    · have hchild := mem_children_of_field? hx
      obtain rfl | hf := hf.cases hg (mem_subtree_of_mem_children hchild)
      · exact hx
      · exact absurd hf (not_isBetween_child hchild)
  | child hc hopen hrest ih =>
    have hbelow := Exposes.mem_subtree ⟨_, hrest, hx⟩
    obtain rfl | hf := hf.cases hc hbelow
    · rw [hopen] at hfunction
      cases hfunction
    · exact ih hf hx

theorem mem_subtree_of_mem_parts (h : q ∈ p.parts) : q ∈ p.subtree :=
  mem_subtree_of_mem_children (mem_children_of_mem_parts h)

theorem mem_subtree_of_field? {name : String} (h : p.field? name = some q) : q ∈ p.subtree :=
  mem_subtree_of_mem_children (mem_children_of_field? h)

theorem exists_child_of_mem_hoisted {p q : Place} (h : q ∈ p.hoisted) :
    (∃ c ∈ p.children, c.isFunction = false ∧ c.Opens q) ∧ q.kind = "variable_declaration" := by
  rw [hoisted, List.mem_flatMap] at h
  obtain ⟨⟨c, hc⟩, _, h⟩ := h
  have hlt := sizeOf_node_lt hc
  dsimp only at h
  split at h
  · cases h
  rename_i hf
  rw [Bool.not_eq_true] at hf
  have hbelow : q ∈ c.hoisted → (∃ c ∈ p.children, c.isFunction = false ∧ c.Opens q) ∧
      q.kind = "variable_declaration" := by
    intro hq
    obtain ⟨⟨d, hd, hdf, hway⟩, hk⟩ := exists_child_of_mem_hoisted hq
    exact ⟨⟨c, hc, hf, .child hd hdf hway⟩, hk⟩
  split at h
  · rename_i hk
    obtain rfl | h := List.mem_cons.mp h
    · exact ⟨⟨q, hc, hf, .refl q⟩, hk⟩
    · exact hbelow h
  · exact hbelow h
termination_by sizeOf p.node

theorem Opens.mem_hoisted (h : c.Opens q) (hc : c ∈ p.children) (hf : c.isFunction = false)
    (hk : q.kind = "variable_declaration") : q ∈ p.hoisted := by
  induction h generalizing p with
  | refl c =>
    rw [hoisted, List.mem_flatMap]
    refine ⟨⟨c, hc⟩, by simp, ?_⟩
    dsimp only
    rw [if_neg (by simp [hf]), if_pos hk]
    exact List.mem_cons_self
  | @child c d q hd hdf _ ih =>
    have hbelow : q ∈ c.hoisted := ih hd hdf hk
    rw [hoisted, List.mem_flatMap]
    refine ⟨⟨c, hc⟩, by simp, ?_⟩
    dsimp only
    rw [if_neg (by simp [hf])]
    split
    · exact List.mem_cons_of_mem _ hbelow
    · exact hbelow

/-- The declarations that belong to a function are those on ways that enter no other function. -/
theorem mem_hoisted_iff : q ∈ p.hoisted ↔
    (∃ c ∈ p.children, c.isFunction = false ∧ c.Opens q) ∧ q.kind = "variable_declaration" := by
  constructor
  · exact exists_child_of_mem_hoisted
  · intro ⟨⟨c, hc, hf, hway⟩, hk⟩
    exact hway.mem_hoisted hc hf hk

theorem hoisted_eq_nil (h : ∀ q ∈ p.subtree, q.kind ≠ "variable_declaration") :
    p.hoisted = [] := by
  rw [List.eq_nil_iff_forall_not_mem]
  intro q hq
  obtain ⟨⟨c, hc, _, hway⟩, hk⟩ := mem_hoisted_iff.mp hq
  exact h q (mem_subtree_trans (mem_subtree_of_mem_children hc) hway.mem_subtree) hk

theorem kind_ne_of_mem_subtree {kind : String}
    (h : (p.subtree.map Place.kind).contains kind = false) (hq : q ∈ p.subtree) : q.kind ≠ kind := by
  intro hk
  have hmem : kind ∈ p.subtree.map Place.kind := hk ▸ List.mem_map_of_mem hq
  rw [List.contains_iff_mem.mpr hmem] at h
  cases h

theorem opens_of_mem_hoisted (h : q ∈ p.hoisted) : p.Opens q := by
  obtain ⟨⟨c, hc, hf, hway⟩, -⟩ := mem_hoisted_iff.mp h
  exact .child hc hf hway

/-- A pattern binds a name: it is the name, or what it binds is in a field or in its parts. -/
inductive Binds : Place → Place → Prop
  | name {p : Place} :
      p.kind = "identifier" ∨ p.kind = "shorthand_property_identifier_pattern" → Binds p p
  | field {p q x : Place} {name : String} :
      boundField? p.kind = some name → p.field? name = some q → Binds q x → Binds p x
  | part {p c x : Place} : p.kind ∈ compoundPatterns → c ∈ p.parts → Binds c x → Binds p x

theorem binds_of_mem_boundNames {p x : Place} (h : x ∈ p.boundNames) : p.Binds x := by
  rw [boundNames] at h
  split at h
  · rename_i hk
    obtain rfl := List.mem_singleton.mp h
    exact .name hk
  split at h
  · rename_i hf
    split at h
    · rename_i q hq
      have hlt := sizeOf_node_lt (mem_children_of_field? hq)
      exact .field hf hq (binds_of_mem_boundNames h)
    · cases h
  · split at h
    · rename_i hk
      obtain ⟨⟨c, hc⟩, _, h⟩ := List.mem_flatMap.mp h
      have hlt := sizeOf_node_lt (mem_children_of_mem_parts hc)
      exact .part (List.contains_iff_mem.mp hk) hc (binds_of_mem_boundNames h)
    · cases h
termination_by sizeOf p.node

theorem boundNames_of_name
    (h : p.kind = "identifier" ∨ p.kind = "shorthand_property_identifier_pattern") :
    p.boundNames = [p] := by
  rw [boundNames, if_pos h]

theorem boundNames_of_field {name : String} (hf : boundField? p.kind = some name)
    (hq : p.field? name = some q) : p.boundNames = q.boundNames := by
  have hk : ¬(p.kind = "identifier" ∨ p.kind = "shorthand_property_identifier_pattern") := by
    rintro (hk | hk) <;> simp [hk, boundField?] at hf
  rw [boundNames, if_neg hk]
  simp only [hf]
  split
  · rename_i q' hq'
    rw [Option.some.inj (hq.symm.trans hq')]
  · rename_i hnone
    rw [hq] at hnone
    cases hnone

theorem boundNames_of_compound (h : p.kind ∈ compoundPatterns) :
    p.boundNames = p.parts.flatMap boundNames := by
  have hcompound : ∀ kind ∈ compoundPatterns,
      ¬(kind = "identifier" ∨ kind = "shorthand_property_identifier_pattern") ∧
        boundField? kind = none := by
    decide
  obtain ⟨hk, hf⟩ := hcompound p.kind h
  rw [boundNames, if_neg hk]
  simp only [hf]
  rw [if_pos (List.contains_iff_mem.mpr h), List.flatMap_subtype (g := boundNames) fun _ _ ↦ rfl,
    List.unattach_attach]

theorem Binds.mem_boundNames (h : p.Binds x) : x ∈ p.boundNames := by
  induction h with
  | name hk =>
    rw [boundNames_of_name hk]
    exact List.mem_singleton_self _
  | field hf hq _ ih => rwa [boundNames_of_field hf hq]
  | part hk hc _ ih =>
    rw [boundNames_of_compound hk]
    exact List.mem_flatMap.mpr ⟨_, hc, ih⟩

theorem mem_boundNames_iff : x ∈ p.boundNames ↔ p.Binds x :=
  ⟨binds_of_mem_boundNames, Binds.mem_boundNames⟩

/-- The kinds of nodes that can bind names. -/
def patternKinds : List String :=
  ["identifier", "shorthand_property_identifier_pattern", "assignment_pattern",
    "object_assignment_pattern", "pair_pattern", "required_parameter", "optional_parameter"]
    ++ compoundPatterns

theorem kind_mem_of_boundField? {kind name : String} (h : boundField? kind = some name) :
    kind ∈ patternKinds := by
  unfold boundField? at h
  split at h
  · simp [patternKinds]
  · simp [patternKinds]
  · simp [patternKinds]
  · simp [patternKinds]
  · simp [patternKinds]
  · cases h

theorem Binds.kind_mem (h : p.Binds x) : p.kind ∈ patternKinds := by
  cases h with
  | name hk => obtain hk | hk := hk <;> simp [hk, patternKinds]
  | field hf _ _ => exact kind_mem_of_boundField? hf
  | part hk _ _ => exact List.mem_append_right _ hk

theorem not_binds_of_kind {kind : String} (h : p.kind = kind)
    (hk : patternKinds.contains kind = false) : ¬p.Binds x := by
  intro hx
  rw [← h, List.contains_iff_mem.mpr hx.kind_mem] at hk
  cases hk

theorem Binds.isFunction_eq_false (h : p.Binds x) : p.isFunction = false := by
  have hdisjoint : ∀ kind ∈ patternKinds, functionKinds.contains kind = false := by decide
  exact hdisjoint p.kind h.kind_mem

theorem Binds.opens (h : p.Binds x) : p.Opens x := by
  induction h with
  | name _ => exact .refl _
  | field _ hq h ih => exact .child (mem_children_of_field? hq) h.isFunction_eq_false ih
  | part _ hc h ih => exact .child (mem_children_of_mem_parts hc) h.isFunction_eq_false ih

theorem Binds.self (h : p.Binds x) : x.Binds x := by
  induction h with
  | name hk => exact .name hk
  | field _ _ _ ih => exact ih
  | part _ _ _ ih => exact ih

/-- All that stands between a pattern and a name in it binds the name, too. -/
theorem Binds.of_mem_subtree (h : p.Binds x) (hf : f ∈ p.subtree) (hx : x ∈ f.subtree) :
    f.Binds x := by
  induction h with
  | name hk =>
    obtain rfl := eq_of_mem_subtree_of_mem_subtree hf hx
    exact .name hk
  | field hk hq h ih =>
    obtain rfl | ⟨c, hc, hfc⟩ := mem_subtree_iff.mp hf
    · exact .field hk hq h
    · obtain rfl := eq_of_mem_subtree_of_siblings hc (mem_children_of_field? hq)
        (mem_subtree_trans hfc hx) h.opens.mem_subtree
      exact ih hfc hx
  | part hk hq h ih =>
    obtain rfl | ⟨c, hc, hfc⟩ := mem_subtree_iff.mp hf
    · exact .part hk hq h
    · obtain rfl := eq_of_mem_subtree_of_siblings hc (mem_children_of_mem_parts hq)
        (mem_subtree_trans hfc hx) h.opens.mem_subtree
      exact ih hfc hx

/-- A node holds a whole pattern that binds a name, and is no part of one itself. -/
def Carries (d x : Place) : Prop := ∃ p ∈ d.children, p.Binds x ∧ ¬d.Binds x

theorem Carries.unique {d e : Place} (hd : d.Carries x) (he : e.Carries x) : d = e := by
  obtain ⟨p, hp, hpx, hdx⟩ := hd
  obtain ⟨q, hq, hqx, hex⟩ := he
  -- A node that holds a pattern inside of a larger one is part of the larger one.
  have houter {d e p q : Place} (hp : p ∈ d.children) (hpx : p.Binds x) (hdx : ¬d.Binds x)
      (hq : q ∈ e.children) (hqx : q.Binds x) (hpq : p ∈ q.subtree) : d = e := by
    obtain rfl | ⟨r, hr, hpr⟩ := subtree_cases hpq
    · exact eq_of_mem_children hp hq
    · obtain rfl := eq_of_mem_children hpr hp
      have hx := mem_subtree_trans (mem_subtree_of_mem_children hp) hpx.opens.mem_subtree
      exact absurd (hqx.of_mem_subtree hr hx) hdx
  obtain hpq | hqp := mem_subtree_or_of_mem_subtree hpx.opens.mem_subtree hqx.opens.mem_subtree
  · exact houter hp hpx hdx hq hqx hpq
  · exact (houter hq hqx hex hp hpx hqp).symm

theorem Binds.eq_of_identifier (h : p.Binds x) (hp : p.kind = "identifier") : x = p := by
  cases h with
  | name _ => rfl
  | field hf _ _ => simp [hp, boundField?] at hf
  | part hk _ _ => simp [hp, compoundPatterns] at hk

theorem Binds.exposes (h : q.Binds x) (hq : q ∈ p.children) : p.Exposes x :=
  h.opens.exposes_of_child hq h.isFunction_eq_false

end MessageExtraction.Place
