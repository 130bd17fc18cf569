import MessageExtraction.Proofs.Extraction.Removals

/-!
Nodes that are scheduled for removal one after the other. The order in which they are has no influence
on what is left, and if what goes with one shares no byte with what goes with another, exactly the
bytes that go with none are left.
-/

namespace MessageExtraction

namespace Extraction

variable {spans : List (Nat × Nat)} {x y : Extraction} {s : Source} {o : Options} {ps qs : List Place}

/-- Two spans that share no byte. -/
def Apart (u v : Nat × Nat) : Prop := ∀ i, ¬(covers u i = true ∧ covers v i = true)

/-- Spans share no byte iff one of them is empty or ends where the other starts or before. -/
theorem apart_iff {u v : Nat × Nat} : Apart u v ↔ u.2 ≤ u.1 ∨ v.2 ≤ v.1 ∨ u.2 ≤ v.1 ∨ v.2 ≤ u.1 := by
  simp only [Apart, covers_iff]
  constructor
  · intro h
    have hfirst := h (max u.1 v.1)
    omega
  · intro h i
    omega

instance (u v : Nat × Nat) : Decidable (Apart u v) := decidable_of_iff _ apart_iff.symm

/-- Spans of which different ones share no byte are untangled, whatever stands behind them. -/
theorem untangled_of_apart (h : ∀ u ∈ spans, ∀ v ∈ spans, u ≠ v → Apart u v) (length : Nat) :
    Untangled spans length := by
  rintro u hu v hv hne ⟨i, hi⟩
  exact absurd hi (h u hu v hv hne i)

/-- Spans are cut out from the last to the first, whatever the order in which they are held. -/
theorem code_eq_of_perm (hs : x.source = y.source) (h : x.removals.Perm y.removals) : x.code = y.code := by
  have hantisymm (u v : Nat × Nat) (huv : laterSpan u v = true) (hvu : laterSpan v u = true) : u = v := by
    rw [laterSpan_iff] at huv hvu
    exact Prod.ext (by omega) (by omega)
  have hperm : (x.removals.mergeSort laterSpan).Perm (y.removals.mergeSort laterSpan) :=
    (List.mergeSort_perm _ _).trans (h.trans (List.mergeSort_perm _ _).symm)
  have hsorted := hperm.eq_of_pairwise (fun u v _ _ ↦ hantisymm u v)
    (pairwise_mergeSort_laterSpan _) (pairwise_mergeSort_laterSpan _)
  rw [code, code, hsorted, hs]

/-- Schedules nodes for removal one after the other. -/
def removeAll (x : Extraction) (ps : List Place) : Extraction := ps.foldl remove x

theorem source_removeAll (x : Extraction) (ps : List Place) : (x.removeAll ps).source = x.source := by
  induction ps generalizing x with
  | nil => rfl
  | cons p ps ih => exact (ih (x.remove p)).trans (remove_frame x p).1

theorem mem_removals_removeAll (x : Extraction) (ps : List Place) (u : Nat × Nat) :
    u ∈ (x.removeAll ps).removals ↔ u ∈ x.removals ∨ u ∈ ps.map removalOf := by
  induction ps generalizing x with
  | nil => simp [removeAll]
  | cons p ps ih =>
    have hstep := ih (x.remove p)
    rw [mem_removals_remove] at hstep
    rw [List.map_cons, List.mem_cons, ← or_assoc, eq_comm (a := u)]
    exact hstep

theorem nodup_removals_removeAll (h : x.removals.Nodup) (ps : List Place) :
    (x.removeAll ps).removals.Nodup := by
  induction ps generalizing x with
  | nil => exact h
  | cons p ps ih => exact ih (nodup_removals_remove x p h)

/-- Nodes may be scheduled in any order. -/
theorem code_removeAll_perm (hx : x.removals.Nodup) (h : ps.Perm qs) :
    (x.removeAll ps).code = (x.removeAll qs).code := by
  apply code_eq_of_perm
  · rw [source_removeAll, source_removeAll]
  · rw [List.perm_ext_iff_of_nodup (nodup_removals_removeAll hx ps) (nodup_removals_removeAll hx qs)]
    intro u
    rw [mem_removals_removeAll, mem_removals_removeAll, (h.map removalOf).mem_iff]

/-- Nodes are scheduled for removal, some of them perhaps more than once. If each takes a span that ends
no earlier than it starts, as in a parsed source, and different spans share no byte, then the bytes that
are in none of them are left, in their order, and the same is left for every order of the nodes. -/
theorem code_removeAll_of_apart (hforward : ∀ p ∈ ps, (removalOf p).1 ≤ (removalOf p).2)
    (hapart : ∀ p ∈ ps, ∀ q ∈ ps, removalOf p ≠ removalOf q → Apart (removalOf p) (removalOf q)) :
    ((fresh s o).removeAll ps).code = Utf8.decodeReplacing (keptFrom (ps.map removalOf) 0 s.bytes) ∧
      ∀ qs, qs.Perm ps → ((fresh s o).removeAll qs).code = ((fresh s o).removeAll ps).code := by
  have hnodup : (fresh s o).removals.Nodup := List.nodup_nil
  refine ⟨?_, fun qs h ↦ code_removeAll_perm hnodup h⟩
  set x := (fresh s o).removeAll ps with hx
  have hmem (u : Nat × Nat) : u ∈ x.removals ↔ u ∈ ps.map removalOf := by
    rw [hx, mem_removals_removeAll]
    exact or_iff_right (List.not_mem_nil)
  have hsource : x.source = s := source_removeAll _ _
  have hspans : ∀ u ∈ x.removals, u.1 ≤ u.2 := by
    intro u hu
    obtain ⟨p, hp, rfl⟩ := List.mem_map.mp ((hmem u).mp hu)
    exact hforward p hp
  have huntangled : Untangled x.removals x.source.bytes.length := by
    rw [untangled_congr hmem]
    apply untangled_of_apart
    intro u hu v hv hne
    obtain ⟨p, hp, rfl⟩ := List.mem_map.mp hu
    obtain ⟨q, hq, rfl⟩ := List.mem_map.mp hv
    exact hapart p hp q hq hne
  rw [code_eq, (spliced_eq_keptFrom_iff x hspans (nodup_removals_removeAll hnodup ps)).mpr huntangled,
    keptFrom_congr fun i _ _ ↦ isCovered_congr hmem i, hsource]

end Extraction

namespace FourWords

open Extraction

def word (start : Nat) : Node := .leaf "identifier" start (start + 2)

/-- Four words of two letters each, with blanks between them. -/
def source : Source where
  filename := "a.js"
  path := "a.js"
  bytes := (Utf8.encode? "ab cd ef gh").getD []
  tree := ⟨"program", true, 0, 11, [], [word 0, word 3, word 6, word 9]⟩
  hasErrors := false

def second : Place := ⟨word 3, [(source.tree, 1)]⟩

def last : Place := ⟨word 9, [(source.tree, 3)]⟩

/-- The last word is scheduled, then the second one, then the last one again. -/
theorem first_and_third_left :
    (∀ p ∈ [last, second, last], (removalOf p).1 ≤ (removalOf p).2) ∧
    (∀ p ∈ [last, second, last], ∀ q ∈ [last, second, last], removalOf p ≠ removalOf q →
      Apart (removalOf p) (removalOf q)) ∧
    ((fresh source .standard).removeAll [last, second, last]).code = ("ab ef" : Text) ∧
    ((fresh source .standard).removeAll [last, last, second]).code = ("ab ef" : Text) := by
  have hforward : ∀ p ∈ [last, second, last], (removalOf p).1 ≤ (removalOf p).2 := by
    decide
  have hapart : ∀ p ∈ [last, second, last], ∀ q ∈ [last, second, last],
      removalOf p ≠ removalOf q → Apart (removalOf p) (removalOf q) := by
    decide
  obtain ⟨hcode, hperm⟩ := code_removeAll_of_apart (s := source) (o := .standard) hforward hapart
  have hleft : Utf8.decodeReplacing (keptFrom ([last, second, last].map removalOf) 0 source.bytes) =
      ("ab ef" : Text) := by
    cbv
  rw [hleft] at hcode
  exact ⟨hforward, hapart, hcode, (hperm _ (.cons _ (.swap _ _ _))).trans hcode⟩

end FourWords

end MessageExtraction
