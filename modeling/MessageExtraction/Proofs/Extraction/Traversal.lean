import MessageExtraction.Proofs.Extraction.Declarations
import MessageExtraction.Proofs.Project.Faults

/-!
A first traverse of a source, with its marks and its catalog, against the declarations of the nodes
in order: it ends with the first failure among them, and otherwise it keeps the first declaration of
each id.
-/

namespace MessageExtraction

open Declaration

namespace Source

/-- A node fails after others: it has no declaration for a reason of its own, or the catalog of what
they declared refuses the one it has. -/
def Fails (s : Source) (o : Options) (before : List Place) (p : Place) (e : Failure) : Prop :=
  s.declared? o p = .error e ∨
    ∃ d, ∃ c : Catalog, s.declared? o p = .ok (some d) ∧ c.Holds s o (s.declaredBy o before) ∧
      c.put s o d.descriptor d.place = .error e c

/-- No node fails after those before it. -/
def Clean (s : Source) (o : Options) (ps : List Place) : Prop :=
  ∀ before p after e, ps = before ++ p :: after → ¬s.Fails o before p e

/-- The first node in order that fails does so with a given failure. -/
def FailsFirst (s : Source) (o : Options) (e : Failure) : Prop :=
  ∃ before p after, s.places = before ++ p :: after ∧ s.Clean o before ∧ s.Fails o before p e

theorem clean_nil (s : Source) (o : Options) : s.Clean o [] := by
  intro before p after e h
  simp at h

theorem clean_append_iff {s : Source} {o : Options} {ps : List Place} {p : Place} :
    s.Clean o (ps ++ [p]) ↔ s.Clean o ps ∧ ∀ e, ¬s.Fails o ps p e := by
  constructor
  · intro h
    refine ⟨fun before q after e hps ↦ ?_, fun e ↦ h ps p [] e rfl⟩
    exact h before q (after ++ [p]) e (by rw [hps, List.append_assoc, List.cons_append])
  · rintro ⟨hps, hp⟩ before q after e heq
    obtain rfl | ⟨after, r, rfl⟩ := List.eq_nil_or_concat after
    · obtain ⟨rfl, hq⟩ := List.append_inj' heq rfl
      obtain rfl := List.singleton_inj.mp hq
      exact hp e
    · rw [List.concat_eq_append, ← List.cons_append, ← List.append_assoc] at heq
      exact hps before q after e (List.append_inj' heq rfl).1

end Source

namespace Extraction

open Source

variable {s : Source} {o : Options} {x y : Extraction} {before after : List Place} {p : Place}

/-- The state after nodes were visited from the start without a failure. -/
structure Reached (s : Source) (o : Options) (before : List Place) (x : Extraction) : Prop where
  source : x.source = s
  options : x.options = o
  catalog : ∃ c, x.catalog = some c ∧ c.Holds s o (s.declaredBy o before)
  marks : ∀ m ∈ x.marks, ∃ q ∈ before, ∃ d, s.declared? o q = .ok (some d) ∧ m = d.place.path
  nodup_removals : x.removals.Nodup
  mem_removals : ∀ span, span ∈ x.removals ↔
    ∃ d ∈ s.declaredBy o before, ∃ a, d.description = some a ∧ removalOf a = span

theorem reached_begin (s : Source) (o : Options) : Reached s o [] (fresh s o).begin where
  source := rfl
  options := rfl
  catalog := ⟨.empty, rfl, Catalog.holds_empty s o⟩
  marks := by
    intro m hm
    cases hm
  nodup_removals := List.nodup_nil
  mem_removals := by simp [fresh, begin, declaredBy]

/-- Nothing that a node may declare at is marked before the node is visited. -/
theorem Reached.unmarked (h : Reached s o before x) (hs : s.places = before ++ p :: after) :
    ∀ q, subject? p = some q → x.isMarked q = false := by
  intro q hq
  by_contra hmarked
  rw [Bool.not_eq_false, isMarked, List.contains_iff_mem] at hmarked
  obtain ⟨r, hr, d, hd, hpath⟩ := h.marks _ hmarked
  have hp : p ∈ s.places := hs ▸ List.mem_append_right _ List.mem_cons_self
  have hr' : r ∈ s.places := hs ▸ List.mem_append_left _ hr
  have hbefore : r ∉ p.subtree := by
    have hpairwise := Place.pairwise_subtree s.root
    rw [← Source.places, hs, List.pairwise_append] at hpairwise
    exact hpairwise.2.2 r hr p List.mem_cons_self
  have hqp := mem_subtree_of_subject? hq
  have hplace : q = d.place := by
    refine Source.eq_of_path_eq (Place.mem_subtree_trans hp hqp) ?_ hpath
    exact Place.mem_subtree_trans hr' (mem_subtree_of_subject? (subject?_of_declared? hd))
  obtain ⟨-, hself⟩ | ⟨-, harguments, hkind⟩ := declared?_cases hd
  · -- an element before `p` is not below it
    rw [hplace, hself] at hqp
    exact hbefore hqp
  · rw [← hplace] at harguments hkind
    rw [subject?] at hq
    split at hq
    · -- a literal is no element
      rename_i he
      rw [Option.some.inj hq] at he
      obtain hk | hk := hkind <;> simp [hk, elementKinds] at he
    split at hq
    · -- a first argument belongs to one call
      obtain ⟨l, hl, hql⟩ := mem_children_of_arguments hq
      obtain ⟨l', hl', hql'⟩ := mem_children_of_arguments harguments
      obtain rfl := Place.eq_of_mem_children hql hql'
      obtain rfl := Place.eq_of_mem_children hl hl'
      exact hbefore (Place.self_mem_subtree p)
    · cases hq

theorem mem_marks_mark (x : Extraction) (p : Place) (m : List Nat) :
    m ∈ (x.mark p).marks ↔ m ∈ x.marks ∨ m = p.path := by
  rw [mark]
  split
  · rename_i h
    rw [isMarked, List.contains_iff_mem] at h
    refine ⟨.inl, ?_⟩
    rintro (hm | rfl)
    · exact hm
    · exact h
  · simp

theorem mem_removals_remove (x : Extraction) (a : Place) (span : Nat × Nat) :
    span ∈ (x.remove a).removals ↔ span ∈ x.removals ∨ removalOf a = span := by
  rw [remove]
  split
  · rename_i h
    rw [List.contains_iff_mem] at h
    refine ⟨.inl, ?_⟩
    rintro (hm | rfl)
    · exact hm
    · exact h
  · simp [eq_comm]

theorem nodup_removals_remove (x : Extraction) (a : Place) (h : x.removals.Nodup) :
    (x.remove a).removals.Nodup := by
  rw [remove]
  split
  · exact h
  · rename_i hnot
    rw [List.contains_iff_mem] at hnot
    rw [← List.concat_eq_append]
    exact h.concat hnot

/-- A visit of a node whose declaration the catalog takes. -/
theorem visit_of_put {d : Declaration} {c c' : Catalog} {m : Message} (hs : x.source = s)
    (ho : x.options = o) (hc : x.catalog = some c)
    (hm : ∀ q, subject? p = some q → x.isMarked q = false) (hd : s.declared? o p = .ok (some d))
    (hput : c.put s o d.descriptor d.place = .ok m c') : x.visit p = .ok () (x.settle c' d) := by
  have hvisits := visits_declared hm
  rw [hs, ho, hd] at hvisits
  cases hvisits with
  | accepted hv =>
    rw [hv, accept_eq d hc, hs, ho, hput]

theorem mark_frame (x : Extraction) (p : Place) : (x.mark p).source = x.source ∧
    (x.mark p).options = x.options ∧ (x.mark p).catalog = x.catalog ∧
    (x.mark p).removals = x.removals := by
  rw [mark]
  split <;> exact ⟨rfl, rfl, rfl, rfl⟩

theorem remove_frame (x : Extraction) (p : Place) : (x.remove p).source = x.source ∧
    (x.remove p).options = x.options ∧ (x.remove p).catalog = x.catalog ∧
    (x.remove p).marks = x.marks := by
  rw [remove]
  split <;> exact ⟨rfl, rfl, rfl, rfl⟩

theorem settle_of_some {c : Catalog} {d : Declaration} {a : Place} (h : d.description = some a) :
    x.settle c d = ((x.withCatalog c).remove a).mark d.place := by
  rw [settle, h]

theorem settle_of_none {c : Catalog} {d : Declaration} (h : d.description = none) :
    x.settle c d = (x.withCatalog c).mark d.place := by
  rw [settle, h]

theorem settle_frame (x : Extraction) (c : Catalog) (d : Declaration) :
    (x.settle c d).source = x.source ∧ (x.settle c d).options = x.options ∧
      (x.settle c d).catalog = some c := by
  cases ha : d.description with
  | none =>
    rw [settle_of_none ha]
    obtain ⟨hs, ho, hc, -⟩ := mark_frame (x.withCatalog c) d.place
    exact ⟨hs, ho, hc⟩
  | some a =>
    rw [settle_of_some ha]
    obtain ⟨hs, ho, hc, -⟩ := mark_frame ((x.withCatalog c).remove a) d.place
    obtain ⟨hs', ho', hc', -⟩ := remove_frame (x.withCatalog c) a
    exact ⟨hs.trans hs', ho.trans ho', hc.trans hc'⟩

theorem mem_marks_settle {c : Catalog} {d : Declaration} {m : List Nat}
    (h : m ∈ (x.settle c d).marks) : m ∈ x.marks ∨ m = d.place.path := by
  cases ha : d.description with
  | none =>
    rw [settle_of_none ha, mem_marks_mark] at h
    exact h
  | some a =>
    rw [settle_of_some ha, mem_marks_mark, (remove_frame _ _).2.2.2] at h
    exact h

theorem removals_settle (x : Extraction) (c : Catalog) (d : Declaration) :
    (x.removals.Nodup → (x.settle c d).removals.Nodup) ∧
      ∀ span, span ∈ (x.settle c d).removals ↔
        span ∈ x.removals ∨ ∃ a, d.description = some a ∧ removalOf a = span := by
  cases ha : d.description with
  | none =>
    rw [settle_of_none ha, (mark_frame _ _).2.2.2]
    simp [withCatalog]
  | some a =>
    rw [settle_of_some ha, (mark_frame _ _).2.2.2]
    refine ⟨fun h ↦ (x.withCatalog c).nodup_removals_remove a h, fun span ↦ ?_⟩
    rw [mem_removals_remove]
    simp [withCatalog]

/-- A node that declares something which is accepted is reached. -/
theorem Reached.settle {c : Catalog} {d : Declaration} (h : Reached s o before x)
    (hd : s.declared? o p = .ok (some d)) (hc : c.Holds s o (s.declaredBy o before ++ [d])) :
    Reached s o (before ++ [p]) (x.settle c d) := by
  have hby : s.declaredBy o (before ++ [p]) = s.declaredBy o before ++ [d] :=
    declaredBy_append before hd
  obtain ⟨hsource, hoptions, hcatalog⟩ := settle_frame x c d
  obtain ⟨hnodup, hmem⟩ := removals_settle x c d
  refine ⟨hsource.trans h.source, hoptions.trans h.options, ⟨c, hcatalog, hby ▸ hc⟩, ?_,
    hnodup h.nodup_removals, ?_⟩
  · intro m hm
    obtain hm | rfl := mem_marks_settle hm
    · obtain ⟨q, hq, hrest⟩ := h.marks m hm
      exact ⟨q, List.mem_append_left _ hq, hrest⟩
    · exact ⟨p, List.mem_append_right _ List.mem_cons_self, d, hd, rfl⟩
  · intro span
    rw [hmem, h.mem_removals, hby]
    simp only [List.mem_append, List.mem_singleton, or_and_right, exists_or, exists_eq_left]

/-- A node that declares nothing is reached, whatever a warning adds. -/
theorem Reached.pass (h : Reached s o before x) (hd : s.declared? o p = .ok none)
    (notice : Option Text) : Reached s o (before ++ [p]) (x.warnIf p notice) := by
  have hby : s.declaredBy o (before ++ [p]) = s.declaredBy o before := by
    rw [declaredBy_append before hd, Option.toList_none, List.append_nil]
  have hmarks : ∀ m ∈ x.marks, ∃ q ∈ before ++ [p], ∃ d, s.declared? o q = .ok (some d) ∧
      m = d.place.path := by
    intro m hm
    obtain ⟨q, hq, hrest⟩ := h.marks m hm
    exact ⟨q, List.mem_append_left _ hq, hrest⟩
  cases notice with
  | none => exact ⟨h.source, h.options, hby ▸ h.catalog, hmarks, h.nodup_removals, hby ▸ h.mem_removals⟩
  | some m =>
    exact ⟨h.source, h.options, hby ▸ h.catalog, hmarks, h.nodup_removals, hby ▸ h.mem_removals⟩

/-- What one visit does: it fails iff the node does, which leaves the state as it was, and otherwise the
node is reached too. -/
def StepsTo (s : Source) (o : Options) (before : List Place) (p : Place) (x : Extraction)
    (outcome : EStateM.Result Failure Extraction Unit) : Prop :=
  (∀ e y, outcome = .error e y ↔ y = x ∧ s.Fails o before p e) ∧
    ∀ y, outcome = .ok () y → Reached s o (before ++ [p]) y

theorem stepsTo_of_failed {e : Failure} (hd : s.declared? o p = .error e) :
    StepsTo s o before p x (.error e x) := by
  refine ⟨fun e' y ↦ ?_, fun y hy ↦ nomatch hy⟩
  simp [Fails, hd, and_comm, eq_comm]

theorem Reached.stepsTo_of_none (h : Reached s o before x) (hd : s.declared? o p = .ok none)
    (notice : Option Text) : StepsTo s o before p x (.ok () (x.warnIf p notice)) := by
  refine ⟨fun e z ↦ ?_, fun z hz ↦ ?_⟩
  · simp [Fails, hd]
  · cases hz
    exact h.pass hd notice

theorem Reached.stepsTo_of_some {d : Declaration} (h : Reached s o before x)
    (hd : s.declared? o p = .ok (some d)) : StepsTo s o before p x (x.accept d) := by
  obtain ⟨c, hc, hholds⟩ := h.catalog
  have hfails : ∀ e, s.Fails o before p e ↔ c.put s o d.descriptor d.place = .error e c := by
    intro e
    constructor
    · rintro (he | ⟨d', c', hd', hc', hput⟩)
      · rw [hd] at he
        cases he
      · rw [hd] at hd'
        obtain rfl := Option.some.inj (Except.ok.inj hd')
        rw [hholds.unique hc']
        exact hput
    · intro hput
      exact .inr ⟨d, c, hd, hholds, hput⟩
  rw [accept_eq d hc, h.source, h.options]
  cases hput : c.put s o d.descriptor d.place with
  | error e' c' =>
    obtain rfl := Catalog.eq_of_put_eq_error hput
    refine ⟨fun e y ↦ ?_, fun y hy ↦ nomatch hy⟩
    rw [hfails, hput]
    simp [and_comm, eq_comm]
  | ok m c' =>
    refine ⟨fun e y ↦ ?_, fun y hy ↦ ?_⟩
    · rw [hfails, hput]
      simp
    · cases hy
      exact h.settle hd (hholds.put hput)

theorem Reached.stepsTo_visit (h : Reached s o before x) (hs : s.places = before ++ p :: after) :
    StepsTo s o before p x (x.visit p) := by
  have hvisits := visits_declared (h.unmarked hs)
  rw [h.source, h.options] at hvisits
  generalize hdeclared : s.declared? o p = outcome at hvisits
  cases hvisits with
  | failed hv =>
    rw [hv]
    exact stepsTo_of_failed hdeclared
  | passed hv =>
    rw [hv]
    exact h.stepsTo_of_none hdeclared _
  | accepted hv =>
    rw [hv]
    exact h.stepsTo_of_some hdeclared

theorem visitAll_append_eq_ok {ps : List Place} :
    x.visitAll (ps ++ [p]) = (y, none) ↔ ∃ z, x.visitAll ps = (z, none) ∧ z.visit p = .ok () y := by
  induction ps generalizing x with
  | nil =>
    rw [List.nil_append, visitAll]
    cases hv : x.visit p <;> simp [visitAll, hv]
  | cons q ps ih =>
    rw [List.cons_append, visitAll, visitAll]
    cases x.visit q with
    | error e z => simp
    | ok _ z => exact ih

/-- Nodes from the start are visited without a failure iff none of them fails, and are then
reached. -/
theorem visitAll_begin {ps rest : List Place} (hs : s.places = ps ++ rest) :
    (∀ y, (fresh s o).begin.visitAll ps = (y, none) → s.Clean o ps ∧ Reached s o ps y) ∧
      (s.Clean o ps → ∃ y, (fresh s o).begin.visitAll ps = (y, none)) := by
  induction ps using List.reverseRecOn generalizing rest with
  | nil =>
    refine ⟨fun y hy ↦ ?_, fun _ ↦ ⟨_, rfl⟩⟩
    obtain rfl := (Prod.mk.inj hy).1
    exact ⟨clean_nil s o, reached_begin s o⟩
  | append_singleton ps p ih =>
    rw [List.append_assoc] at hs
    obtain ⟨hok, hclean⟩ := ih hs
    refine ⟨fun y hy ↦ ?_, fun hc ↦ ?_⟩
    · obtain ⟨z, hz, hv⟩ := visitAll_append_eq_ok.mp hy
      obtain ⟨hps, hreached⟩ := hok z hz
      obtain ⟨hfails, hnext⟩ := hreached.stepsTo_visit hs
      refine ⟨clean_append_iff.mpr ⟨hps, fun e he ↦ ?_⟩, hnext y hv⟩
      have hfailed := (hfails e z).mpr ⟨rfl, he⟩
      rw [hv] at hfailed
      cases hfailed
    · obtain ⟨hps, hp⟩ := clean_append_iff.mp hc
      obtain ⟨z, hz⟩ := hclean hps
      obtain ⟨hfails, -⟩ := (hok z hz).2.stepsTo_visit hs
      cases hv : z.visit p with
      | error e w => exact absurd ((hfails e w).mp hv).2 (hp e)
      | ok _ y => exact ⟨y, visitAll_append_eq_ok.mpr ⟨z, hz, hv⟩⟩

theorem traverse_begin (s : Source) (o : Options) :
    (fresh s o).begin.traverse = (fresh s o).begin.visitAll s.places := rfl

theorem traverse_eq_failure_iff {e : Failure} :
    ((fresh s o).begin.traverse).2 = some e ↔ s.FailsFirst o e := by
  rw [traverse_begin, visitAll_eq_failure_iff]
  constructor
  · rintro ⟨before, p, after, y, z, hs, hv, hp⟩
    obtain ⟨hclean, hreached⟩ := (visitAll_begin hs).1 y hv
    exact ⟨before, p, after, hs, hclean, (((hreached.stepsTo_visit hs).1 e z).mp hp).2⟩
  · rintro ⟨before, p, after, hs, hclean, hp⟩
    obtain ⟨y, hv⟩ := (visitAll_begin hs).2 hclean
    have hreached := ((visitAll_begin hs).1 y hv).2
    exact ⟨before, p, after, y, y, hs, hv, ((hreached.stepsTo_visit hs).1 e y).mpr ⟨rfl, hp⟩⟩

theorem traverse_eq_ok_iff :
    (∃ y, (fresh s o).begin.traverse = (y, none)) ↔ s.Clean o s.places := by
  rw [traverse_begin]
  have hs : s.places = s.places ++ [] := (List.append_nil _).symm
  exact ⟨fun ⟨y, hy⟩ ↦ ((visitAll_begin hs).1 y hy).1, (visitAll_begin hs).2⟩

theorem reached_of_traverse (h : (fresh s o).begin.traverse = (y, none)) :
    Reached s o s.places y := by
  rw [traverse_begin] at h
  exact ((visitAll_begin (List.append_nil _).symm).1 y h).2

theorem run_of_failure {e : Failure} (h : x.begin.traverse = (y, some e)) :
    x.run = (y, .error e) := by
  rw [run, h]

theorem run_of_success (h : x.begin.traverse = (y, none)) :
    ∃ r, x.run.2 = .ok r ∧ r.messages = y.messages := by
  rw [run, h]
  exact ⟨_, rfl, rfl⟩

theorem Reached.messages (h : Reached s o before x) :
    List.Forall₂ (IsStoredAs s o) (firsts (s.declaredBy o before)) x.messages := by
  obtain ⟨c, hc, hholds⟩ := h.catalog
  have hmessages : x.messages = c.messages := by rw [Extraction.messages, hc, Option.getD_some]
  rw [hmessages]
  exact hholds.messages

/-- A run from the start fails with the first failure in the order of the nodes. Without a failure
its messages are what is first declared of each id, in the order of those declarations. -/
theorem run_fresh_iff (s : Source) (o : Options) :
    (∀ e, (fresh s o).run.2 = .error e ↔ s.FailsFirst o e) ∧
    ∀ ms, (∃ r, (fresh s o).run.2 = .ok r ∧ r.messages = ms) ↔
      s.Clean o s.places ∧ List.Forall₂ (IsStoredAs s o) (firsts (s.declaredBy o s.places)) ms := by
  simp only [← traverse_eq_failure_iff, ← traverse_eq_ok_iff]
  rcases ht : (fresh s o).begin.traverse with ⟨y, _ | e⟩
  · obtain ⟨r, hr, hmessages⟩ := run_of_success ht
    have hstored := (reached_of_traverse ht).messages
    rw [hr]
    refine ⟨fun e ↦ by simp, fun ms ↦ ⟨?_, ?_⟩⟩
    · rintro ⟨r', hr', rfl⟩
      obtain rfl := Except.ok.inj hr'
      exact ⟨⟨y, rfl⟩, hmessages ▸ hstored⟩
    · rintro ⟨-, hms⟩
      have hunique : Relator.RightUnique (IsStoredAs s o) := fun _ _ _ ↦ Catalog.eq_of_isStoredAs
      exact ⟨r, rfl, hmessages.trans (hunique.forall₂ hstored hms)⟩
  · rw [run_of_failure ht]
    refine ⟨fun e' ↦ by simp, fun ms ↦ by simp⟩

end Extraction

end MessageExtraction
