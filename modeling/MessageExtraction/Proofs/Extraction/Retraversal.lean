import MessageExtraction.Proofs.Extraction.Growth

/-!
A source that is traversed again: what was recorded is marked and passed over, what was reported is
reported once more, and what failed fails at the same node for the same reason.
-/

namespace MessageExtraction

namespace Extraction

open Source

variable {s : Source} {o : Options} {x y z : Extraction} {before after ps rest : List Place}
  {p : Place} {e : Failure}

/-- A node that declares nothing is only reported, if there is something to report. -/
theorem visit_of_none (hm : p.kind ∈ elementKinds → x.isMarked p = false)
    (hd : x.source.declared? x.options p = .ok none) :
    x.visit p = .ok () (x.warnIf p (x.source.notice? x.options p)) := by
  by_cases hunmarked : ∀ q, subject? p = some q → x.isMarked q = false
  · have hvisits := visits_declared hunmarked
    rw [hd] at hvisits
    cases hvisits with
    | passed hv => exact hv
  · -- Only a call can be marked at its subject and not at itself, and of a call nothing is reported.
    simp only [not_forall, Bool.not_eq_false] at hunmarked
    obtain ⟨q, hq, hq_marked⟩ := hunmarked
    have he : p.kind ∉ elementKinds := by
      intro he
      rw [subject?, if_pos he] at hq
      rw [← Option.some.inj hq, hm he] at hq_marked
      cases hq_marked
    rw [notice?, if_neg he]
    obtain hv | ⟨e, -, hfails⟩ := visit_of_marked hq hq_marked
    · exact hv
    · rw [hd] at hfails
      cases hfails

theorem isMarked_of_visit {d : Declaration} (h : x.visit p = .ok () y)
    (hd : x.source.declared? x.options p = .ok (some d)) : y.isMarked d.place = true := by
  rw [isMarked, List.contains_iff_mem]
  cases hm : x.isMarked d.place with
  | true => exact (advances_visit h).grows.marks.mem (List.contains_iff_mem.mp hm)
  | false =>
    have hvisits : x.Visits p (x.source.declared? x.options p) := by
      refine visits_declared fun q hq ↦ ?_
      rw [subject?_of_declared? hd] at hq
      rw [← Option.some.inj hq]
      exact hm
    rw [hd] at hvisits
    cases hvisits with
    | accepted hv =>
      rw [hv] at h
      obtain ⟨c, c', m, -, -, rfl⟩ := settle_of_accept h
      rw [marks_settle hm]
      exact List.mem_append_right _ List.mem_cons_self

theorem Reached.isMarked_element (h : Reached s o before x) (hbefore : before ⊆ s.places)
    (hp : p ∈ s.places) (he : p.kind ∈ elementKinds) (hd : s.declared? o p = .ok none) :
    x.isMarked p = false := by
  by_contra hm
  rw [Bool.not_eq_false, isMarked, List.contains_iff_mem] at hm
  obtain ⟨q, hq, d, hdq, hpath⟩ := h.marks _ hm
  have hplace : p = d.place :=
    Source.eq_of_path_eq hp (Place.mem_subtree_trans (hbefore hq)
      (mem_subtree_of_subject? (subject?_of_declared? hdq))) hpath
  obtain ⟨-, hself⟩ | ⟨-, -, hkind⟩ := declared?_cases hdq
  · rw [← hself, ← hplace, hd] at hdq
    cases hdq
  · rw [← hplace] at hkind
    obtain hk | hk := hkind <;> simp [hk, elementKinds] at he

/-- The state with more warnings and reports behind those it has. -/
def report (x : Extraction) (warnings : List Text) (logs : List LogEvent) : Extraction :=
  { x with warnings := x.warnings ++ warnings, logs := x.logs ++ logs }

/-- Nodes were visited, and all that they declare at is marked. -/
structure Retraces (s : Source) (o : Options) (before : List Place) (x : Extraction) : Prop where
  reached : Reached s o before x
  marked : ∀ p ∈ before, ∀ d, s.declared? o p = .ok (some d) → x.isMarked d.place = true

theorem Retraces.report (h : Retraces s o before x) (warnings : List Text) (logs : List LogEvent) :
    Retraces s o before (x.report warnings logs) where
  reached := ⟨h.reached.source, h.reached.options, h.reached.catalog, h.reached.marks,
    h.reached.nodup_removals, h.reached.mem_removals⟩
  marked := h.marked

theorem retraces_of_visitAll (hs : s.places = ps ++ rest)
    (h : (fresh s o).begin.visitAll ps = (y, none)) : Retraces s o ps y := by
  refine ⟨((visitAll_begin hs).1 y h).2, ?_⟩
  -- From the end: a mark is left by the visit of its own node, and the visits after it keep it.
  induction ps using List.reverseRecOn generalizing y rest with
  | nil => exact fun p hp ↦ absurd hp List.not_mem_nil
  | append_singleton ps p ih =>
    rw [List.append_assoc] at hs
    obtain ⟨z, hz, hv⟩ := visitAll_append_eq_ok.mp h
    have hreached := ((visitAll_begin hs).1 z hz).2
    intro q hq d hd
    obtain hq | hq := List.mem_append.mp hq
    · have hmem := List.contains_iff_mem.mp (ih hs hz q hq d hd)
      exact List.contains_iff_mem.mpr ((advances_visit hv).grows.marks.mem hmem)
    · obtain rfl := List.mem_singleton.mp hq
      refine isMarked_of_visit hv ?_
      rw [hreached.source, hreached.options]
      exact hd

theorem settle_reports (x : Extraction) (c : Catalog) (d : Declaration) :
    (x.settle c d).warnings = x.warnings ∧ (x.settle c d).logs = x.logs := by
  have hmark (y : Extraction) : (y.mark d.place).warnings = y.warnings ∧
      (y.mark d.place).logs = y.logs := by
    rw [mark]
    split <;> exact ⟨rfl, rfl⟩
  cases ha : d.description with
  | none =>
    rw [settle_of_none ha]
    exact hmark _
  | some a =>
    rw [settle_of_some ha, (hmark _).1, (hmark _).2, remove]
    split <;> exact ⟨rfl, rfl⟩

theorem Retraces.visit_of_some {d : Declaration} (h : Retraces s o before z) (hp : p ∈ before)
    (hd : s.declared? o p = .ok (some d)) : z.visit p = .ok () z := by
  obtain hv | ⟨e, -, he⟩ := visit_of_marked (subject?_of_declared? hd) (h.marked p hp d hd)
  · exact hv
  · rw [h.reached.source, h.reached.options, hd] at he
    cases he

/-- What a visit has reported the first time it reports again, and it does nothing else. -/
theorem Retraces.visit_again (h : Retraces s o before z) (hbefore : before ⊆ s.places)
    (hp : p ∈ before) (hx : Reached s o ps x) (hs : s.places = ps ++ p :: rest)
    (hv : x.visit p = .ok () y) :
    (z.report x.warnings x.logs).visit p = .ok () (z.report y.warnings y.logs) := by
  have hz := h.report x.warnings x.logs
  have hunmarked := hx.unmarked hs
  have hvisits := visits_declared hunmarked
  rw [hx.source, hx.options] at hvisits
  generalize hd : s.declared? o p = outcome at hvisits
  match outcome, hd with
  | .error e, hd =>
    cases hvisits with
    | failed hfailed =>
      rw [hv] at hfailed
      cases hfailed
  | .ok (some d), hd =>
    cases hvisits with
    | accepted haccept =>
      -- The first visit has recorded and reported nothing, and the mark it has left stops this one.
      rw [haccept] at hv
      obtain ⟨c, c', m, -, -, rfl⟩ := settle_of_accept hv
      rw [(settle_reports x c' d).1, (settle_reports x c' d).2]
      exact hz.visit_of_some hp hd
  | .ok none, hd =>
    -- No mark is in the way, now as then, so that both visits come to the same notice.
    have hfirst : x.visit p = .ok () (x.warnIf p (s.notice? o p)) := by
      rw [← hx.source, ← hx.options] at hd ⊢
      exact visit_of_none (fun he ↦ hunmarked p (by rw [subject?, if_pos he])) hd
    have hagain : (z.report x.warnings x.logs).visit p =
        .ok () ((z.report x.warnings x.logs).warnIf p (s.notice? o p)) := by
      have hm (he : p.kind ∈ elementKinds) : (z.report x.warnings x.logs).isMarked p = false :=
        hz.reached.isMarked_element hbefore (hbefore hp) he hd
      rw [← hz.reached.source, ← hz.reached.options] at hd ⊢
      exact visit_of_none hm hd
    rw [hfirst] at hv
    cases hv
    rw [hagain]
    cases s.notice? o p with
    | none => rfl
    | some m =>
      simp only [warnIf, warn, Extraction.report, List.append_assoc]
      have hsource : z.source = x.source := h.reached.source.trans hx.source.symm
      rw [hsource]

theorem visitAll_append (h : x.visitAll ps = (y, none)) :
    x.visitAll (ps ++ rest) = y.visitAll rest := by
  induction ps generalizing x with
  | nil =>
    cases h
    rfl
  | cons p ps ih =>
    rw [visitAll] at h
    rw [List.cons_append, visitAll]
    split at h
    · exact ih h
    · cases h

/-- Nodes that were visited without a failure are visited again without one, and all that comes of it
is that what was reported is reported again. -/
theorem Retraces.visitAll_again (h : Retraces s o (ps ++ after) z)
    (hs : s.places = ps ++ (after ++ rest)) (hx : (fresh s o).begin.visitAll ps = (x, none)) :
    z.visitAll ps = (z.report x.warnings x.logs, none) := by
  induction ps using List.reverseRecOn generalizing after x with
  | nil =>
    obtain rfl := (Prod.mk.inj hx).1
    simp [visitAll, Extraction.report, fresh, begin]
  | append_singleton ps p ih =>
    rw [List.append_assoc, List.singleton_append] at h hs
    obtain ⟨w, hw, hv⟩ := visitAll_append_eq_ok.mp hx
    have hsplit : s.places = ps ++ (p :: after ++ rest) := hs
    refine visitAll_append_eq_ok.mpr ⟨_, ih h hsplit hw, ?_⟩
    have hbefore : ps ++ p :: after ⊆ s.places := by
      rw [hsplit, ← List.append_assoc]
      exact List.subset_append_left _ _
    exact h.visit_again hbefore (List.mem_append_right _ List.mem_cons_self)
      ((visitAll_begin hsplit).1 w hw).2 hsplit hv

/-- The first node that fails when nodes are visited in order, and why. -/
def firstFailure? (x : Extraction) : List Place → Option (Place × Failure)
  | [] => none
  | p :: rest =>
    match x.visit p with
    | .ok _ y => y.firstFailure? rest
    | .error e _ => some (p, e)

theorem snd_visitAll (x : Extraction) (ps : List Place) :
    (x.visitAll ps).2 = (x.firstFailure? ps).map (·.2) := by
  induction ps generalizing x with
  | nil => rfl
  | cons p ps ih =>
    rw [visitAll, firstFailure?]
    cases x.visit p with
    | ok _ y => exact ih y
    | error e y => rfl

theorem firstFailure?_append (h : x.visitAll ps = (y, none)) :
    x.firstFailure? (ps ++ rest) = y.firstFailure? rest := by
  induction ps generalizing x with
  | nil =>
    cases h
    rfl
  | cons p ps ih =>
    rw [visitAll] at h
    rw [List.cons_append, firstFailure?]
    cases hv : x.visit p with
    | ok _ z =>
      rw [hv] at h
      exact ih h
    | error e z =>
      rw [hv] at h
      cases h

theorem visitAll_split (x : Extraction) (ps : List Place) :
    ∃ before rest y, ps = before ++ rest ∧ x.visitAll before = (y, none) ∧
      y.visitAll rest = (y, (y.firstFailure? rest).map (·.2)) ∧
      (rest = [] ∨ ∃ p after e, rest = p :: after ∧ y.visit p = .error e y) := by
  rcases hv : x.visitAll ps with ⟨y, _ | e⟩
  · exact ⟨ps, [], y, (List.append_nil ps).symm, hv, rfl, .inl rfl⟩
  · obtain ⟨before, p, after, w, z, hps, hb, hp⟩ := visitAll_eq_failure_iff.mp (congrArg Prod.snd hv)
    obtain rfl := eq_of_visit_eq_error hp
    refine ⟨before, p :: after, z, hps, hb, ?_, .inr ⟨p, after, e, rfl, hp⟩⟩
    rw [visitAll, firstFailure?, hp]
    rfl

theorem Retraces.stops_again (h : Retraces s o before z) (hy : Reached s o before y)
    (hs : s.places = before ++ rest)
    (hstop : rest = [] ∨ ∃ p after e, rest = p :: after ∧ y.visit p = .error e y) :
    z.visitAll rest = (z, (z.firstFailure? rest).map (·.2)) ∧
      z.firstFailure? rest = y.firstFailure? rest := by
  obtain rfl | ⟨p, after, e, rfl, he⟩ := hstop
  · exact ⟨rfl, rfl⟩
  · obtain ⟨-, hfails⟩ := ((hy.stepsTo_visit hs).1 e y).mp he
    have hz : z.visit p = .error e z := ((h.reached.stepsTo_visit hs).1 e z).mpr ⟨rfl, hfails⟩
    constructor
    · rw [visitAll, firstFailure?, hz]
      rfl
    · rw [firstFailure?, firstFailure?, hz, he]

theorem Retraces.begin_eq (h : Retraces s o before z) : z.begin = z := by
  obtain ⟨c, hc, -⟩ := h.reached.catalog
  rw [begin, hc, Option.getD_some, ← hc]

/-- A traverse again, from any state that differs from the one the first has left in what was reported
only. -/
theorem Retraces.traverse_again (h : Retraces s o before z) (hs : s.places = before ++ rest)
    (hy : (fresh s o).begin.visitAll before = (y, none))
    (hstop : rest = [] ∨ ∃ p after e, rest = p :: after ∧ y.visit p = .error e y) :
    z.begin.firstFailure? s.places = (fresh s o).begin.firstFailure? s.places ∧
      z.traverse = (z.report y.warnings y.logs, (fresh s o).traverse.2) := by
  have hreached := ((visitAll_begin hs).1 y hy).2
  have hall : Retraces s o (before ++ []) z := by rwa [List.append_nil]
  have hagain : z.visitAll before = (z.report y.warnings y.logs, none) := hall.visitAll_again hs hy
  obtain ⟨hvisit, hfailure⟩ := (h.report y.warnings y.logs).stops_again hreached hs hstop
  have hfirst : (fresh s o).begin.firstFailure? s.places = y.firstFailure? rest := by
    rw [hs, firstFailure?_append hy]
  have houtcome : (fresh s o).traverse.2 = (y.firstFailure? rest).map (·.2) := by
    rw [← hfirst]
    exact snd_visitAll _ _
  rw [traverse, h.begin_eq, h.reached.source, hfirst, houtcome, ← hfailure]
  constructor
  · rw [hs, firstFailure?_append hagain]
  · rw [hs, visitAll_append hagain, hvisit]

/-- The state after traverses, each whether those before it have failed or not. -/
def traversed (x : Extraction) (n : Nat) : Extraction := (fun x ↦ x.traverse.1)^[n] x

theorem traversed_succ (x : Extraction) (n : Nat) :
    x.traversed (n + 1) = (x.traversed n).traverse.1 :=
  Function.iterate_succ_apply' _ n x

/-- After any number of traverses only what was reported tells the state from that after the first. -/
theorem traversed_eq_report (hs : s.places = before ++ rest)
    (hy : (fresh s o).begin.visitAll before = (y, none))
    (hstop : rest = [] ∨ ∃ p after e, rest = p :: after ∧ y.visit p = .error e y)
    (hfirst : (fresh s o).traverse.1 = y) (n : Nat) :
    ∃ warnings logs, (fresh s o).traversed (n + 1) = y.report warnings logs := by
  induction n with
  | zero =>
    refine ⟨[], [], ?_⟩
    rw [traversed_succ]
    simpa [Extraction.report, traversed] using hfirst
  | succ n ih =>
    obtain ⟨warnings, logs, hn⟩ := ih
    have hz := (retraces_of_visitAll hs hy).report warnings logs
    refine ⟨warnings ++ y.warnings, logs ++ y.logs, ?_⟩
    rw [traversed_succ, hn, (hz.traverse_again hs hy hstop).2]
    simp [Extraction.report]

/-- A traverse after the first ends as the first has ended: at no node, or at the same one and for the
same reason. The catalog, the marks, what is to be removed and so the code stay as they are, and what
the first has reported is reported once more. -/
theorem retraverse_eq (s : Source) (o : Options) (n : Nat) :
    let first := (fresh s o).traverse
    let y := (fresh s o).traversed (n + 1)
    y.begin.firstFailure? s.places = (fresh s o).begin.firstFailure? s.places ∧
      y.traverse.2 = first.2 ∧
      y.traverse.1 =
        { y with warnings := y.warnings ++ first.1.warnings, logs := y.logs ++ first.1.logs } ∧
      y.traverse.1.code = first.1.code := by
  obtain ⟨before, rest, y, hs, hy, hrest, hstop⟩ := visitAll_split (fresh s o).begin s.places
  have hfirst : (fresh s o).traverse.1 = y := by
    have htraverse : (fresh s o).traverse = (fresh s o).begin.visitAll s.places := rfl
    rw [htraverse, hs, visitAll_append hy, hrest]
  obtain ⟨warnings, logs, hn⟩ := traversed_eq_report hs hy hstop hfirst n
  have hz := (retraces_of_visitAll hs hy).report warnings logs
  obtain ⟨hfailure, htraverse⟩ := hz.traverse_again hs hy hstop
  simp only [hn, hfirst, hfailure, htraverse]
  exact ⟨trivial, trivial, rfl, rfl⟩

end Extraction

end MessageExtraction
