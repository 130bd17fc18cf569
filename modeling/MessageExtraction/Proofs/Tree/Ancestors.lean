import MessageExtraction.Proofs.Tree.Preorder

namespace MessageExtraction

namespace Place

variable {p q c x f : Place}

theorem length_above_lt_of_mem_ancestors (h : q ∈ p.ancestors) :
    q.above.length < p.above.length := by
  obtain ⟨n, above⟩ := p
  induction above generalizing n with
  | nil => cases h
  | cons step above ih =>
    obtain rfl | h := List.mem_cons.mp h
    · exact Nat.lt_succ_self _
    · exact Nat.lt_succ_of_lt (ih n h)

theorem length_above_le_of_mem_subtree (h : q ∈ p.subtree) : p.above.length ≤ q.above.length :=
  (above_suffix_of_mem_subtree h).length_le

theorem not_mem_subtree_of_mem_ancestors (h : q ∈ p.ancestors) : q ∉ p.subtree := by
  intro hq
  have := length_above_lt_of_mem_ancestors h
  have := length_above_le_of_mem_subtree hq
  omega

/-- What is around a place comes after all that is nearer. -/
theorem pairwise_ancestors (p : Place) : p.ancestors.Pairwise fun a b ↦ b ∈ a.ancestors := by
  obtain ⟨n, above⟩ := p
  induction above generalizing n with
  | nil => exact .nil
  | cons step above ih => exact .cons (fun _ h ↦ h) (ih step.1)

theorem eq_of_mem_subtree_of_mem_subtree (hq : q ∈ p.subtree) (hp : p ∈ q.subtree) : q = p := by
  obtain rfl | ⟨c, hc, hqc⟩ := mem_subtree_iff.mp hq
  · rfl
  · have := sizeOf_node_lt hc
    have := sizeOf_le_of_mem_subtree hqc
    have := sizeOf_le_of_mem_subtree hp
    omega

/-- Of two places that hold a third one holds the other. -/
theorem mem_subtree_or_of_mem_subtree {p q x : Place} (hp : x ∈ p.subtree) (hq : x ∈ q.subtree) :
    p ∈ q.subtree ∨ q ∈ p.subtree := by
  obtain rfl | ⟨r, hr, hx⟩ := subtree_cases hp
  · exact .inl hq
  obtain rfl | ⟨r', hr', hx'⟩ := subtree_cases hq
  · exact .inr hp
  obtain rfl := eq_of_mem_children hx hx'
  obtain ⟨i, -, ha⟩ := mem_children_iff.mp hx
  exact mem_subtree_or_of_mem_subtree hr hr'
termination_by x.above.length
decreasing_by simp [ha]

/-- A place stands properly between two others. -/
def IsBetween (f p x : Place) : Prop := f ∈ p.subtree ∧ f ≠ p ∧ x ∈ f.subtree ∧ x ≠ f

/-- Between a place and what is below a child of it stand the child and what is between the two. -/
theorem IsBetween.cases (h : f.IsBetween p x) (hc : c ∈ p.children) (hx : x ∈ c.subtree) :
    f = c ∨ f.IsBetween c x := by
  obtain ⟨hf, hfp, hxf, hne⟩ := h
  obtain rfl | ⟨d, hd, hfd⟩ := mem_subtree_iff.mp hf
  · exact absurd rfl hfp
  obtain rfl := eq_of_mem_subtree_of_siblings hd hc (mem_subtree_trans hfd hxf) hx
  by_cases heq : f = d
  · exact .inl heq
  · exact .inr ⟨hfd, heq, hxf, hne⟩

theorem not_isBetween_child (hx : x ∈ p.children) : ¬f.IsBetween p x := by
  intro h
  obtain rfl | ⟨hf, hfx, hxf, hne⟩ := h.cases hx (self_mem_subtree x)
  · exact h.2.2.2 rfl
  · exact hne (eq_of_mem_subtree_of_mem_subtree hxf hf)

end Place

namespace Source

open Place

variable {s : Source} {p q : Place}

theorem mem_subtree_of_mem_ancestors (hp : p ∈ s.places) (hq : q ∈ p.ancestors) :
    p ∈ q.subtree := by
  obtain ⟨n, above⟩ := p
  induction above generalizing n with
  | nil => cases hq
  | cons step above ih =>
    have hparent := mem_places_of_mem_ancestors hp (q := ⟨step.1, above⟩) List.mem_cons_self
    obtain hroot | ⟨r, -, hr⟩ := subtree_cases hp
    · cases hroot
    have hchild : (⟨n, step :: above⟩ : Place) ∈ (⟨step.1, above⟩ : Place).children := by
      obtain ⟨i, hi, ha⟩ := mem_children_iff.mp hr
      cases ha
      exact hr
    obtain rfl | hq := List.mem_cons.mp hq
    · exact mem_subtree_of_mem_children hchild
    · exact mem_subtree_trans (ih _ hparent hq) (mem_subtree_of_mem_children hchild)

end Source

end MessageExtraction
