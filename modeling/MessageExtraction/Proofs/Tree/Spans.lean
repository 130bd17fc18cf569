import MessageExtraction.Proofs.Tree.Preorder

/-!
The bytes that the nodes of a parsed source span: children lie in their parent and follow each
other, so that two nodes of which neither is below the other share no byte.
-/

namespace MessageExtraction

/-- A node ends no earlier than it starts, and its children lie in it one after the other. -/
structure Node.IsOrdered (n : Node) : Prop where
  forward : n.start ≤ n.stop
  inside : ∀ c ∈ n.children, n.start ≤ c.start ∧ c.stop ≤ n.stop
  siblings : n.children.Pairwise fun c d ↦ c.stop ≤ d.start

theorem Node.isOrdered_iff {n : Node} : n.IsOrdered ↔ n.start ≤ n.stop ∧
    (∀ c ∈ n.children, n.start ≤ c.start ∧ c.stop ≤ n.stop) ∧
    n.children.Pairwise fun c d ↦ c.stop ≤ d.start :=
  ⟨fun h ↦ ⟨h.forward, h.inside, h.siblings⟩, fun h ↦ ⟨h.1, h.2.1, h.2.2⟩⟩

instance (n : Node) : Decidable n.IsOrdered := decidable_of_iff _ Node.isOrdered_iff.symm

/-- A source whose nodes are all ordered, as those of a parsed file are. -/
def Source.InOrder (s : Source) : Prop := ∀ p ∈ s.places, p.node.IsOrdered

/-- Of two places of a tree one is below the other, or they are below different children of one
place. -/
theorem Place.nested_or_apart {p a b : Place} (ha : a ∈ p.subtree) (hb : b ∈ p.subtree) :
    a ∈ b.subtree ∨ b ∈ a.subtree ∨ ∃ r ∈ p.subtree, ∃ c ∈ r.children, ∃ d ∈ r.children,
      c ≠ d ∧ a ∈ c.subtree ∧ b ∈ d.subtree := by
  obtain rfl | ⟨c, hc, hac⟩ := mem_subtree_iff.mp ha
  · exact .inr (.inl hb)
  obtain rfl | ⟨d, hd, hbd⟩ := mem_subtree_iff.mp hb
  · exact .inl ha
  by_cases hcd : c = d
  · rw [← hcd] at hbd
    have hlt := sizeOf_node_lt hc
    obtain h | h | ⟨r, hr, h⟩ := nested_or_apart hac hbd
    · exact .inl h
    · exact .inr (.inl h)
    · exact .inr (.inr ⟨r, mem_subtree_trans (mem_subtree_of_mem_children hc) hr, h⟩)
  · exact .inr (.inr ⟨p, self_mem_subtree p, c, hc, d, hd, hcd, hac, hbd⟩)
termination_by sizeOf p.node

theorem Node.IsOrdered.stop_le_start {n c d : Node} {i j : Nat} (h : n.IsOrdered) (hc : n.children[i]? = some c)
    (hd : n.children[j]? = some d) (hij : i < j) : c.stop ≤ d.start := by
  obtain ⟨hi, rfl⟩ := List.getElem?_eq_some_iff.mp hc
  obtain ⟨hj, rfl⟩ := List.getElem?_eq_some_iff.mp hd
  exact List.pairwise_iff_getElem.mp h.siblings i j hi hj hij

namespace Source.InOrder

variable {s : Source}

theorem of_mem_children {p : Place} {c : Node} (hs : s.InOrder) (hp : p ∈ s.places)
    (hc : c ∈ p.node.children) : c.IsOrdered := by
  obtain ⟨i, hi⟩ := List.mem_iff_getElem?.mp hc
  have hchild : (⟨c, (p.node, i) :: p.above⟩ : Place) ∈ p.children :=
    Place.mem_children_iff.mpr ⟨i, hi, rfl⟩
  exact hs _ (mem_places_of_mem_children hp hchild)

/-- What is below a place lies in it. -/
theorem within {p q : Place} (hs : s.InOrder) (hp : p ∈ s.places) (hq : q ∈ p.subtree) :
    p.node.start ≤ q.node.start ∧ q.node.stop ≤ p.node.stop := by
  obtain rfl | ⟨c, hc, hq⟩ := Place.mem_subtree_iff.mp hq
  · exact ⟨Nat.le_refl _, Nat.le_refl _⟩
  · have hlt := Place.sizeOf_node_lt hc
    have hchild := (hs p hp).inside _ (Place.node_mem_of_mem_children hc)
    have hbelow := within hs (mem_places_of_mem_children hp hc) hq
    omega
termination_by sizeOf p.node

end Source.InOrder

end MessageExtraction
