import Mathlib.Data.List.Nodup
import MessageExtraction.Proofs.Tree.Places

namespace MessageExtraction.Place

theorem sizeOf_le_of_mem_subtree {p q : Place} (h : q ∈ p.subtree) :
    sizeOf q.node ≤ sizeOf p.node := by
  obtain rfl | ⟨c, hc, hq⟩ := mem_subtree_iff.mp h
  · exact Nat.le_refl _
  · have hlt := sizeOf_node_lt hc
    have := sizeOf_le_of_mem_subtree hq
    omega
termination_by sizeOf p.node

theorem above_suffix_of_mem_subtree {p q : Place} (h : q ∈ p.subtree) : p.above <:+ q.above := by
  obtain rfl | ⟨c, hc, hq⟩ := mem_subtree_iff.mp h
  · exact List.suffix_rfl
  · have hlt := sizeOf_node_lt hc
    obtain ⟨i, -, ha⟩ := mem_children_iff.mp hc
    have hsuffix := above_suffix_of_mem_subtree hq
    rw [ha] at hsuffix
    exact (List.suffix_cons _ _).trans hsuffix
termination_by sizeOf p.node

/-- A child at a position of a place. -/
def IsChildAt (c r : Place) (i : Nat) : Prop :=
  r.node.children[i]? = some c.node ∧ c.above = (r.node, i) :: r.above

theorem IsChildAt.mem_children {r c : Place} {i : Nat} (h : c.IsChildAt r i) : c ∈ r.children :=
  mem_children_iff.mpr ⟨i, h⟩

theorem IsChildAt.eq_of_eq {r c d : Place} {i : Nat} (hc : c.IsChildAt r i) (hd : d.IsChildAt r i) :
    c = d := by
  have hnode : c.node = d.node := Option.some.inj (hc.1.symm.trans hd.1)
  have habove : c.above = d.above := hc.2.trans hd.2.symm
  cases c
  cases d
  simp_all

/-- What is below two children of one place is below one child. -/
theorem eq_of_mem_subtree_of_siblings {p c d q : Place} (hc : c ∈ p.children) (hd : d ∈ p.children)
    (hqc : q ∈ c.subtree) (hqd : q ∈ d.subtree) : c = d := by
  obtain ⟨i, hci⟩ := mem_children_iff.mp hc
  obtain ⟨j, hdj⟩ := mem_children_iff.mp hd
  have hsc := above_suffix_of_mem_subtree hqc
  have hsd := above_suffix_of_mem_subtree hqd
  have hlength : c.above.length = d.above.length := by
    rw [hci.2, hdj.2, List.length_cons, List.length_cons]
  have habove : c.above = d.above :=
    (List.suffix_of_suffix_length_le hsc hsd (Nat.le_of_eq hlength)).eq_of_length hlength
  obtain rfl : i = j := by
    rw [hci.2, hdj.2] at habove
    exact (Prod.mk.inj (List.cons.inj habove).1).2
  exact IsChildAt.eq_of_eq hci hdj

theorem nodup_children (p : Place) : p.children.Nodup := by
  rw [List.Nodup, List.pairwise_iff_getElem]
  intro i j hi hj hlt heq
  simp only [children, List.getElem_mapIdx] at heq
  have := (Prod.mk.inj (List.cons.inj (Place.mk.inj heq).2).1).2
  omega

/-- In the order of a tree nothing stands before what it is below. -/
theorem pairwise_subtree (p : Place) : p.subtree.Pairwise fun a b ↦ a ∉ b.subtree := by
  rw [subtree_eq, List.pairwise_cons]
  constructor
  · intro b hb hp
    obtain ⟨c, hc, hb⟩ := List.mem_flatMap.mp hb
    have hlt := sizeOf_node_lt hc
    have := sizeOf_le_of_mem_subtree hb
    have := sizeOf_le_of_mem_subtree hp
    omega
  · rw [List.pairwise_flatMap]
    constructor
    · intro c hc
      have hlt := sizeOf_node_lt hc
      exact pairwise_subtree c
    · refine (nodup_children p).imp_of_mem ?_
      intro c d hc hd hne a ha b hb hab
      exact hne (eq_of_mem_subtree_of_siblings hc hd ha (mem_subtree_trans hb hab))
termination_by sizeOf p.node

theorem nodup_subtree (p : Place) : p.subtree.Nodup := by
  apply (pairwise_subtree p).imp
  intro a b hnot heq
  exact hnot (heq ▸ self_mem_subtree a)

end MessageExtraction.Place
