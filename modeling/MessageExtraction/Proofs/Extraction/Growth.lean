import MessageExtraction.Project.Emission
import MessageExtraction.Proofs.Extraction.DefaultMessages
import MessageExtraction.Proofs.Extraction.Traversal

/-!
What may be done with an extraction, step after step and in any order: whether a step fails or not,
nothing that was recorded, marked, scheduled or reported is lost, and there is a mark for every
message.
-/

namespace MessageExtraction.Extraction

open Source

variable {x y z : Extraction} {p q : Place}

/-- Nothing is lost from one state to another: a catalog that is there stays and only gets entries
behind those it has, and all that was marked, scheduled or reported stays where it stands. -/
structure Grows (x y : Extraction) : Prop where
  source : y.source = x.source
  options : y.options = x.options
  catalog : ∀ c, x.catalog = some c → ∃ c', y.catalog = some c' ∧ c.entries <+: c'.entries
  messages : x.messages <+: y.messages
  marks : x.marks <+: y.marks
  removals : x.removals <+: y.removals
  warnings : x.warnings <+: y.warnings

theorem Grows.refl (x : Extraction) : x.Grows x where
  source := rfl
  options := rfl
  catalog := fun c hc ↦ ⟨c, hc, List.prefix_rfl⟩
  messages := List.prefix_rfl
  marks := List.prefix_rfl
  removals := List.prefix_rfl
  warnings := List.prefix_rfl

theorem Grows.trans (hxy : x.Grows y) (hyz : y.Grows z) : x.Grows z where
  source := hyz.source.trans hxy.source
  options := hyz.options.trans hxy.options
  catalog := by
    intro c hc
    obtain ⟨c', hc', hentries⟩ := hxy.catalog c hc
    obtain ⟨c'', hc'', hentries'⟩ := hyz.catalog c' hc'
    exact ⟨c'', hc'', hentries.trans hentries'⟩
  messages := hxy.messages.trans hyz.messages
  marks := hxy.marks.trans hyz.marks
  removals := hxy.removals.trans hyz.removals
  warnings := hxy.warnings.trans hyz.warnings

/-- No node is marked twice, no span is scheduled twice, and every message has a mark of its own. -/
structure Covered (x : Extraction) : Prop where
  nodup_marks : x.marks.Nodup
  nodup_removals : x.removals.Nodup
  messages_le : x.messages.length ≤ x.marks.length

theorem covered_fresh (s : Source) (o : Options) : (fresh s o).Covered :=
  ⟨List.nodup_nil, List.nodup_nil, Nat.le_refl _⟩

/-- From one state to another nothing is lost and no message comes without a mark. -/
structure Advances (x y : Extraction) : Prop where
  grows : x.Grows y
  covered : x.Covered → y.Covered

theorem Advances.refl (x : Extraction) : x.Advances x := ⟨.refl x, id⟩

theorem Advances.trans (hxy : x.Advances y) (hyz : y.Advances z) : x.Advances z :=
  ⟨hxy.grows.trans hyz.grows, fun h ↦ hyz.covered (hxy.covered h)⟩

theorem marks_mark_of_not_isMarked (h : x.isMarked p = false) :
    (x.mark p).marks = x.marks ++ [p.path] := by
  rw [mark, h]
  rfl

theorem nodup_concat_path (h : x.isMarked p = false) (hx : x.marks.Nodup) :
    (x.marks ++ [p.path]).Nodup := by
  rw [← List.concat_eq_append]
  refine hx.concat fun hmem ↦ ?_
  rw [isMarked, List.contains_iff_mem.mpr hmem] at h
  cases h

theorem advances_mark (x : Extraction) (p : Place) : x.Advances (x.mark p) := by
  cases hm : x.isMarked p with
  | true =>
    rw [mark, if_pos hm]
    exact .refl x
  | false =>
    have hmark : x.mark p = { x with marks := x.marks ++ [p.path] } := by rw [mark, hm]; rfl
    rw [hmark]
    refine ⟨{ Grows.refl x with marks := List.prefix_append _ _ }, fun h ↦ ?_⟩
    refine ⟨nodup_concat_path hm h.nodup_marks, h.nodup_removals, ?_⟩
    exact Nat.le_trans h.messages_le (List.prefix_append _ _).length_le

theorem advances_remove (x : Extraction) (p : Place) : x.Advances (x.remove p) := by
  refine ⟨?_, fun h ↦ ⟨?_, nodup_removals_remove x p h.nodup_removals, ?_⟩⟩
  · rw [remove]
    split
    · exact .refl x
    · exact { Grows.refl x with removals := List.prefix_append _ _ }
  · rw [(remove_frame x p).2.2.2]
    exact h.nodup_marks
  · rw [messages_remove, (remove_frame x p).2.2.2]
    exact h.messages_le

theorem advances_warn (x : Extraction) (m : Text) (p : Place) : x.Advances (x.warn m p) where
  grows := { Grows.refl x with warnings := List.prefix_append _ _ }
  covered := fun h ↦ ⟨h.nodup_marks, h.nodup_removals, h.messages_le⟩

theorem advances_begin (x : Extraction) : x.Advances x.begin where
  grows :=
    { Grows.refl x with
      catalog := fun c hc ↦ ⟨c, by rw [begin, hc, Option.getD_some], List.prefix_rfl⟩ }
  covered := fun h ↦ ⟨h.nodup_marks, h.nodup_removals, h.messages_le⟩

theorem advances_logs (x : Extraction) (logs : List LogEvent) : x.Advances { x with logs := logs } where
  grows := { Grows.refl x with }
  covered := fun h ↦ ⟨h.nodup_marks, h.nodup_removals, h.messages_le⟩

theorem entries_of_put {s : Source} {o : Options} {c c' : Catalog} {d : Descriptor} {m : Message}
    (h : c.put s o d p = .ok m c') :
    c.entries <+: c'.entries ∧ c'.entries.length ≤ c.entries.length + 1 := by
  obtain ⟨id, -, -, ⟨e, -, -, -, rfl⟩ | ⟨-, -, rfl⟩⟩ := Catalog.put_cases h
  · exact ⟨List.prefix_rfl, Nat.le_succ _⟩
  · exact ⟨List.prefix_append _ _, by simp⟩

theorem messages_of_catalog {c : Catalog} (h : x.catalog = some c) : x.messages = c.messages := by
  rw [messages, h, Option.getD_some]

theorem grows_withCatalog {c c' : Catalog} (hc : x.catalog = some c) (h : c.entries <+: c'.entries) :
    x.Grows (x.withCatalog c') :=
  { Grows.refl x with
    catalog := by
      intro c₀ hc₀
      obtain rfl := Option.some.inj (hc.symm.trans hc₀)
      exact ⟨c', rfl, h⟩
    messages := by
      rw [messages_of_catalog hc, messages_of_catalog (x := x.withCatalog c') rfl]
      exact h.map _ }

theorem grows_settle {c c' : Catalog} (d : Declaration) (hc : x.catalog = some c)
    (h : c.entries <+: c'.entries) : x.Grows (x.settle c' d) := by
  have hwith := grows_withCatalog hc h
  cases ha : d.description with
  | none =>
    rw [settle_of_none ha]
    exact hwith.trans (advances_mark _ _).grows
  | some a =>
    rw [settle_of_some ha]
    exact (hwith.trans (advances_remove _ a).grows).trans (advances_mark _ _).grows

theorem marks_settle {c : Catalog} {d : Declaration} (h : x.isMarked d.place = false) :
    (x.settle c d).marks = x.marks ++ [d.place.path] := by
  cases ha : d.description with
  | none =>
    rw [settle_of_none ha]
    exact marks_mark_of_not_isMarked (x := x.withCatalog c) h
  | some a =>
    have hmarks : ((x.withCatalog c).remove a).marks = x.marks := (remove_frame _ _).2.2.2
    have hm : ((x.withCatalog c).remove a).isMarked d.place = false := by
      rw [isMarked, hmarks]
      exact h
    rw [settle_of_some ha, marks_mark_of_not_isMarked hm, hmarks]

/-- A message that is new comes with a mark that is new. -/
theorem advances_settle {c c' : Catalog} {d : Declaration} {m : Message} (hc : x.catalog = some c)
    (hm : x.isMarked d.place = false)
    (hput : c.put x.source x.options d.descriptor d.place = .ok m c') :
    x.Advances (x.settle c' d) := by
  obtain ⟨hentries, hlength⟩ := entries_of_put hput
  refine ⟨grows_settle d hc hentries, fun h ↦ ?_⟩
  have hle := h.messages_le
  refine ⟨?_, (removals_settle x c' d).1 h.nodup_removals, ?_⟩
  · rw [marks_settle hm]
    exact nodup_concat_path hm h.nodup_marks
  · rw [messages_of_catalog hc] at hle
    rw [messages_settle, marks_settle hm]
    simp only [Catalog.messages, List.length_map, List.length_append, List.length_singleton] at hle ⊢
    omega

theorem advances_visit (h : x.visit p = .ok () y) : x.Advances y := by
  have hvisited := x.visited_visit p
  rw [h] at hvisited
  cases hvisited with
  | unchanged => exact .refl x
  | warned m => exact advances_warn x m p
  | recorded hc hm _ hput => exact advances_settle hc hm hput

theorem advances_visitAll (x : Extraction) (ps : List Place) : x.Advances (x.visitAll ps).1 := by
  induction ps generalizing x with
  | nil => exact .refl x
  | cons p ps ih =>
    rw [visitAll]
    split
    · rename_i y hy
      exact (advances_visit hy).trans (ih y)
    · rename_i y hy
      obtain rfl := eq_of_visit_eq_error hy
      exact .refl y

theorem advances_traverse (x : Extraction) : x.Advances x.traverse.1 :=
  (advances_begin x).trans (advances_visitAll x.begin x.source.places)

theorem advances_finish (x : Extraction) : x.Advances x.finish.1 :=
  (advances_begin x).trans (advances_logs x.begin _)

theorem advances_run (x : Extraction) : x.Advances x.run.1 := by
  have htraverse := (advances_begin x).trans (advances_traverse x.begin)
  rw [run]
  split
  · rename_i y e hy
    rw [hy] at htraverse
    exact htraverse
  · rename_i y hy
    rw [hy] at htraverse
    exact htraverse.trans (advances_finish y)

theorem advances_emit (x : Extraction) (fs : FileSystem) (cwd : Path) :
    x.Advances (x.emit fs cwd).2.1 := by
  have hbegin := advances_begin x
  rw [emit]
  split
  · exact hbegin.trans (advances_logs x.begin _)
  split
  · exact hbegin
  · exact hbegin.trans (advances_logs x.begin _)

theorem advances_runOn (x : Extraction) (fs : FileSystem) (cwd : Path) :
    x.Advances (x.runOn fs cwd).2.1 := by
  have htraverse := (advances_begin x).trans (advances_traverse x.begin)
  rw [runOn]
  split
  · rename_i y e hy
    rw [hy] at htraverse
    exact htraverse
  · rename_i y hy
    rw [hy] at htraverse
    exact htraverse.trans (advances_emit y fs cwd)

/-- One thing that may be done with an extraction. It may end, and run as a whole, in memory or with
files that its catalog is written to. -/
inductive Step where
  | begin
  | traverse
  | finish
  | run
  | emit (fs : FileSystem) (cwd : Path)
  | runOn (fs : FileSystem) (cwd : Path)
  | visit (p : Place)
  | remove (p : Place)
  | warn (message : Text) (p : Place)
  | mark (p : Place)

/-- The state after a step; one that fails leaves what it has done before it fails. -/
def Step.take (x : Extraction) : Step → Extraction
  | .begin => x.begin
  | .traverse => x.traverse.1
  | .finish => x.finish.1
  | .run => x.run.1
  | .emit fs cwd => (x.emit fs cwd).2.1
  | .runOn fs cwd => (x.runOn fs cwd).2.1
  | .visit p =>
    match x.visit p with
    | .ok _ y | .error _ y => y
  | .remove p => x.remove p
  | .warn message p => x.warn message p
  | .mark p => x.mark p

def afterSteps (x : Extraction) (steps : List Step) : Extraction := steps.foldl Step.take x

theorem advances_take (x : Extraction) (step : Step) : x.Advances (step.take x) := by
  cases step with
  | begin => exact advances_begin x
  | traverse => exact advances_traverse x
  | finish => exact advances_finish x
  | run => exact advances_run x
  | emit fs cwd => exact advances_emit x fs cwd
  | runOn fs cwd => exact advances_runOn x fs cwd
  | visit p =>
    rw [Step.take]
    split
    · exact advances_visit ‹_›
    · rename_i e y hy
      obtain rfl := eq_of_visit_eq_error hy
      exact .refl y
  | remove p => exact advances_remove x p
  | warn message p => exact advances_warn x message p
  | mark p => exact advances_mark x p

theorem advances_afterSteps (x : Extraction) (steps : List Step) :
    x.Advances (x.afterSteps steps) := by
  induction steps generalizing x with
  | nil => exact .refl x
  | cons step steps ih => exact (advances_take x step).trans (ih (step.take x))

/-- After any steps on a new extraction, in any order and failing or not, each message has a mark of
its own, and one step more loses nothing: the catalog, once there, stays and only gets messages behind
those it has, and marks, removals and warnings only become more. -/
theorem steps_lose_nothing (s : Source) (o : Options) (steps : List Step) (step : Step) :
    ((fresh s o).afterSteps steps).Covered ∧
      ((fresh s o).afterSteps steps).Grows ((fresh s o).afterSteps (steps ++ [step])) := by
  refine ⟨(advances_afterSteps _ steps).covered (covered_fresh s o), ?_⟩
  have hlast : (fresh s o).afterSteps (steps ++ [step]) =
      step.take ((fresh s o).afterSteps steps) := List.foldl_append
  rw [hlast]
  exact (advances_take _ step).grows

end MessageExtraction.Extraction
