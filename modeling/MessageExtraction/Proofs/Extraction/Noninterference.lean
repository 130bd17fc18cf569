import MessageExtraction.Proofs.Extraction.Retraversal
import MessageExtraction.Proofs.Project.Emission

/-!
Two runs over one source under different options. Where messages are stored with their places, the run
is the same up to those places; where descriptions are enforced, it is the same up to the first
declaration without one.
-/

namespace MessageExtraction

namespace Message

/-- The message without the place it was found at. -/
def unlocated (m : Message) : Message := { m with file := none, start := none, stop := none }

end Message

namespace Catalog

variable {s : Source} {o : Options} {c : Catalog} {d : Descriptor} {p : Place}

def Entry.unlocated (e : Entry) : Entry := { e with message := e.message.unlocated }

def unlocated (c : Catalog) : Catalog := ⟨c.entries.map Entry.unlocated⟩

theorem find?_unlocated (c : Catalog) (v : Value) :
    c.unlocated.find? v = (c.find? v).map Entry.unlocated := by
  rw [find?, unlocated, List.find?_map]
  rfl

theorem store_unlocated (s : Source) (o : Options) (id : MessageId) (d : Descriptor) (p : Place) :
    store s { o with keepLocation := false } id d p =
      (store s o id d p).map Message.unlocated := by
  rw [store, store]
  cases storedJson d.description with
  | error f => rfl
  | ok j =>
    rw [ok_bind, ok_bind]
    cases storedText d.defaultMessage with
    | error f => rfl
    | ok t =>
      rw [ok_bind, ok_bind]
      cases o.keepLocation <;> rfl

/-- Neither what is refused nor why depends on the places of the messages. -/
theorem put_unlocated (c : Catalog) (s : Source) (o : Options) (d : Descriptor) (p : Place) :
    c.unlocated.put s { o with keepLocation := false } d p = match c.put s o d p with
      | .ok m c' => .ok m.unlocated c'.unlocated
      | .error f c' => .error f c'.unlocated := by
  cases hid : MessageId.ofValue? d.id with
  | none =>
    rw [put_of_no_id hid, put_of_no_id hid]
  | some id =>
    have hfind := find?_unlocated c id.toValue
    cases he : c.find? id.toValue with
    | none =>
      rw [he, Option.map_none] at hfind
      cases hd : o.enforceDescriptions && isMissing d.description with
      | true =>
        rw [put_of_missing hid (by simp [he]) hd,
          put_of_missing (o := { o with keepLocation := false }) hid (by simp [hfind]) hd]
      | false =>
        rw [put_of_new hid he hd,
          put_of_new (o := { o with keepLocation := false }) hid hfind hd, store_unlocated]
        cases store s o id d p with
        | error f => rfl
        | ok m =>
          simp only [Except.map, unlocated, List.map_append, List.map_cons, List.map_nil]
          rfl
    | some e =>
      rw [he, Option.map_some] at hfind
      cases ha : agrees e.message d with
      | false =>
        rw [put_of_conflict hid he ha, put_of_conflict hid hfind ha]
        rfl
      | true =>
        cases hd : o.enforceDescriptions && isMissing d.description with
        | true =>
          have ha' : ∀ e', c.unlocated.find? id.toValue = some e' → agrees e'.message d = true := by
            rintro e' h
            rw [hfind] at h
            cases h
            exact ha
          rw [put_of_missing hid (by simp [he, ha]) hd,
            put_of_missing (o := { o with keepLocation := false }) hid ha' hd]
        | false =>
          rw [put_of_stored hid he ha hd,
            put_of_stored (o := { o with keepLocation := false }) hid hfind ha hd]
          rfl

/-- With descriptions enforced, what would have been accepted is refused if it lacks one. -/
theorem put_enforcing {c' : Catalog} {m : Message}
    (h : c.put s { o with enforceDescriptions := false } d p = .ok m c') :
    c.put s { o with enforceDescriptions := true } d p =
      if isMissing d.description then .error (s.complain p .missingDescription) c else .ok m c' := by
  obtain ⟨id, hid, -, hcases⟩ := put_cases h
  have hagrees : ∀ e, c.find? id.toValue = some e → agrees e.message d = true := by
    intro e he
    obtain ⟨e', he', ha, -⟩ | ⟨hnone, -⟩ := hcases
    · rw [he] at he'
      rw [Option.some.inj he']
      exact ha
    · rw [he] at hnone
      cases hnone
  split
  · rename_i hd
    exact put_of_missing (o := { o with enforceDescriptions := true }) hid hagrees hd
  · rename_i hd
    have hd : isMissing d.description = false := Bool.not_eq_true _ ▸ hd
    cases he : c.find? id.toValue with
    | some e =>
      rw [put_of_stored hid he (hagrees e he) rfl] at h
      rw [put_of_stored (o := { o with enforceDescriptions := true }) hid he (hagrees e he) hd, ← h]
    | none =>
      rw [put_of_new hid he rfl] at h
      rw [put_of_new (o := { o with enforceDescriptions := true }) hid he hd, ← h]
      rfl

/-- What is accepted with descriptions enforced has one and is accepted without. -/
theorem put_of_enforcing {c' : Catalog} {m : Message}
    (h : c.put s { o with enforceDescriptions := true } d p = .ok m c') :
    c.put s { o with enforceDescriptions := false } d p = .ok m c' := by
  obtain ⟨id, hid, -, ⟨e, he, ha, rfl, rfl⟩ | ⟨hnone, hm, rfl⟩⟩ := put_cases h
  · exact put_of_stored hid he ha rfl
  · rw [put_of_new hid hnone rfl]
    have hstore : store s { o with enforceDescriptions := false } id d p = .ok m := hm
    rw [hstore]

end Catalog

/-- The result without the places of its messages. -/
def FileResult.unlocated (r : FileResult) : FileResult :=
  { r with messages := r.messages.map Message.unlocated }

namespace Declaration

/-- Whether a declaration says nothing in its description. -/
def isUndescribed (d : Declaration) : Bool := Catalog.isMissing d.descriptor.description

end Declaration

namespace Source

variable {s : Source} {o o' : Options} {p : Place}

theorem declared?_congr (h : o'.moduleName = o.moduleName) :
    s.declared? o' p = s.declared? o p := by
  have helement : s.elementDeclaration o' p = s.elementDeclaration o p := by
    rw [elementDeclaration, elementDeclaration, h]
  rw [declared?, declared?, helement]
  rfl

theorem notice?_congr (h : o'.moduleName = o.moduleName) : s.notice? o' p = s.notice? o p := by
  rw [notice?, notice?, h]

theorem declaredBy_cons (s : Source) (o : Options) {d : Option Declaration} (ps : List Place)
    (h : s.declared? o p = .ok d) : s.declaredBy o (p :: ps) = d.toList ++ s.declaredBy o ps := by
  rw [declaredBy, List.filterMap_cons, h]
  cases d <;> rfl

end Source

namespace Extraction

open Source

variable {s : Source} {o o' : Options} {x y z : Extraction} {c : Catalog}
  {before ps : List Place} {p : Place}

/-- A visit of a node at which nothing is marked, as a function of what the node declares. -/
theorem visit_eq (hm : ∀ q, subject? p = some q → x.isMarked q = false) :
    x.visit p = match x.source.declared? x.options p with
      | .error e => .error e x
      | .ok none => .ok () (x.warnIf p (x.source.notice? x.options p))
      | .ok (some d) => x.accept d := by
  have hvisits := visits_declared hm
  generalize x.source.declared? x.options p = outcome at hvisits ⊢
  cases hvisits with
  | failed hv => exact hv
  | passed hv => exact hv
  | accepted hv => exact hv

/-- The state as it is under other options and with another catalog. -/
def under (x : Extraction) (o : Options) (c : Option Catalog) : Extraction :=
  { x with options := o, catalog := c }

theorem mark_under (x : Extraction) (o : Options) (c : Option Catalog) (p : Place) :
    (x.under o c).mark p = (x.mark p).under o c := by
  have hm : (x.under o c).isMarked p = x.isMarked p := rfl
  rw [mark, mark, hm]
  cases x.isMarked p <;> rfl

theorem remove_under (x : Extraction) (o : Options) (c : Option Catalog) (p : Place) :
    (x.under o c).remove p = (x.remove p).under o c := by
  have hr : (x.under o c).removals = x.removals := rfl
  rw [remove, remove, hr]
  cases x.removals.contains (removalOf p) <;> rfl

theorem settle_under (x : Extraction) (o : Options) (c : Option Catalog) (c' c'' : Catalog)
    (d : Declaration) : (x.under o c).settle c' d = (x.settle c'' d).under o (some c') := by
  cases ha : d.description with
  | none =>
    rw [settle_of_none ha, settle_of_none ha, ← mark_under]
    rfl
  | some a =>
    rw [settle_of_some ha, settle_of_some ha, ← mark_under, ← remove_under]
    rfl

theorem warnIf_under (x : Extraction) (o : Options) (c : Option Catalog) (p : Place)
    (notice : Option Text) : (x.under o c).warnIf p notice = (x.warnIf p notice).under o c := by
  cases notice <;> rfl

theorem warnIf_frame (x : Extraction) (p : Place) (notice : Option Text) :
    (x.warnIf p notice).options = x.options ∧ (x.warnIf p notice).catalog = x.catalog := by
  cases notice <;> exact ⟨rfl, rfl⟩

theorem visit_under (ho : o.moduleName = x.options.moduleName)
    (hm : ∀ q, subject? p = some q → x.isMarked q = false) (c : Option Catalog) :
    (x.under o c).visit p = match x.source.declared? x.options p with
      | .error e => .error e (x.under o c)
      | .ok none => .ok () ((x.warnIf p (x.source.notice? x.options p)).under o c)
      | .ok (some d) => (x.under o c).accept d := by
  rw [visit_eq (x := x.under o c) hm]
  have hsource : (x.under o c).source = x.source := rfl
  have hoptions : (x.under o c).options = o := rfl
  rw [hsource, hoptions, declared?_congr ho, notice?_congr ho]
  simp only [warnIf_under]

/-- The extraction as it is where messages are stored without their places. -/
def unlocated (x : Extraction) : Extraction :=
  x.under { x.options with keepLocation := false } (x.catalog.map Catalog.unlocated)

theorem accept_unlocated (hc : x.catalog = some c) (d : Declaration) :
    x.unlocated.accept d = match x.accept d with
      | .ok _ y => .ok () y.unlocated
      | .error e y => .error e y.unlocated := by
  have hc' : x.unlocated.catalog = some c.unlocated := by
    rw [unlocated, under, hc, Option.map_some]
  have hsource : x.unlocated.source = x.source := rfl
  have hoptions : x.unlocated.options = { x.options with keepLocation := false } := rfl
  rw [accept_eq d hc, accept_eq d hc', hsource, hoptions, Catalog.put_unlocated]
  cases c.put x.source x.options d.descriptor d.place with
  | error e c' => rfl
  | ok m c' =>
    obtain ⟨-, ho, hr⟩ := settle_frame x c' d
    have hsettle : (x.settle c' d).unlocated =
        (x.settle c' d).under { x.options with keepLocation := false } (some c'.unlocated) := by
      rw [unlocated, ho, hr, Option.map_some]
    simp only [hsettle]
    rw [unlocated, settle_under x _ _ _ c']

theorem visit_unlocated (hm : ∀ q, subject? p = some q → x.isMarked q = false)
    (hc : x.catalog = some c) : x.unlocated.visit p = match x.visit p with
      | .ok _ y => .ok () y.unlocated
      | .error e y => .error e y.unlocated := by
  have hmodule : { x.options with keepLocation := false }.moduleName = x.options.moduleName := rfl
  rw [visit_eq hm, unlocated, visit_under hmodule hm, ← unlocated]
  match x.source.declared? x.options p with
  | .error e => rfl
  | .ok none =>
    obtain ⟨ho, hc⟩ := warnIf_frame x p (x.source.notice? x.options p)
    dsimp only
    rw [unlocated, ho, hc]
  | .ok (some d) => exact accept_unlocated hc d

theorem Reached.visitAll_unlocated (h : Reached s o before x) (hs : s.places = before ++ ps) :
    x.unlocated.visitAll ps = ((x.visitAll ps).1.unlocated, (x.visitAll ps).2) := by
  induction ps generalizing before x with
  | nil => rfl
  | cons p ps ih =>
    obtain ⟨c, hc, -⟩ := h.catalog
    have hvisit := visit_unlocated (h.unmarked hs) hc
    have hstep := (h.stepsTo_visit hs).2
    rw [visitAll, visitAll, hvisit]
    cases hv : x.visit p with
    | error e y => rfl
    | ok _ y =>
      have hsplit : s.places = (before ++ [p]) ++ ps := by
        rw [List.append_assoc, List.singleton_append]
        exact hs
      exact ih (hstep y hv) hsplit

theorem messages_unlocated (x : Extraction) :
    x.unlocated.messages = x.messages.map Message.unlocated := by
  rw [messages, messages, unlocated, under]
  cases x.catalog with
  | none => rfl
  | some c => simp [Catalog.messages, Catalog.unlocated, Catalog.Entry.unlocated]

theorem result_unlocated (x : Extraction) (output : Option Path) :
    x.unlocated.result output = (x.result output).unlocated := by
  rw [result, messages_unlocated]
  rfl

theorem finish_snd (x : Extraction) : x.finish.2 = x.result none := rfl

/-- Storing places with messages changes nothing else. -/
theorem run_unlocated (s : Source) (o : Options) :
    (fresh s { o with keepLocation := false }).run.2 =
      (fresh s o).run.2.map FileResult.unlocated := by
  have hbegin : (fresh s { o with keepLocation := false }).begin = (fresh s o).begin.unlocated := rfl
  have htraverse : (fresh s { o with keepLocation := false }).begin.traverse =
      ((fresh s o).begin.traverse.1.unlocated, (fresh s o).begin.traverse.2) := by
    rw [traverse_begin, hbegin]
    exact (reached_begin s o).visitAll_unlocated rfl
  rw [run, run, htraverse]
  rcases (fresh s o).begin.traverse with ⟨y, _ | e⟩
  · simp only [finish_snd, result_unlocated, Except.map]
  · rfl

/-- The extraction as it is where descriptions are enforced. -/
def enforcing (x : Extraction) : Extraction :=
  x.under { x.options with enforceDescriptions := true } x.catalog

/-- What an extraction that does not enforce descriptions accepts, one that does accepts too, unless it
lacks one. -/
theorem accept_enforcing {d : Declaration} (ho : x.options.enforceDescriptions = false)
    (h : x.accept d = .ok () y) :
    x.enforcing.accept d =
      if Catalog.isMissing d.descriptor.description then
        .error (x.source.complain d.place .missingDescription) x.enforcing
      else .ok () y.enforcing := by
  obtain ⟨c, c', m, hc, hput, rfl⟩ := settle_of_accept h
  have hlax : { x.options with enforceDescriptions := false } = x.options := by
    rw [← ho]
  rw [← hlax] at hput
  have hput' := Catalog.put_enforcing hput
  have hc' : x.enforcing.catalog = some c := hc
  have hsource : x.enforcing.source = x.source := rfl
  have hoptions : x.enforcing.options = { x.options with enforceDescriptions := true } := rfl
  rw [accept_eq d hc', hsource, hoptions, hput']
  by_cases hmissing : Catalog.isMissing d.descriptor.description = true
  · rw [if_pos hmissing, if_pos hmissing]
  · obtain ⟨-, hsettle, hcatalog⟩ := settle_frame x c' d
    rw [if_neg hmissing, if_neg hmissing]
    dsimp only
    rw [enforcing, settle_under x _ _ _ c', enforcing, hsettle, hcatalog]

theorem accept_of_enforcing {d : Declaration} (ho : x.options.enforceDescriptions = false)
    (h : x.enforcing.accept d = .ok () z) : ∃ y, x.accept d = .ok () y := by
  obtain ⟨c, c', m, hc, hput, -⟩ := settle_of_accept h
  have hlax : { x.options with enforceDescriptions := false } = x.options := by
    rw [← ho]
  have hput' := Catalog.put_of_enforcing (o := x.options) hput
  rw [hlax] at hput'
  have hc' : x.catalog = some c := hc
  refine ⟨x.settle c' d, ?_⟩
  rw [accept_eq d hc']
  have hsource : x.enforcing.source = x.source := rfl
  rw [hsource] at hput'
  rw [hput']

theorem enforcing_warnIf (x : Extraction) (p : Place) (notice : Option Text) :
    (x.warnIf p notice).enforcing = (x.warnIf p notice).under
      { x.options with enforceDescriptions := true } x.catalog := by
  obtain ⟨ho, hc⟩ := warnIf_frame x p notice
  rw [enforcing, ho, hc]

theorem visit_enforcing (ho : x.options.enforceDescriptions = false)
    (hm : ∀ q, subject? p = some q → x.isMarked q = false) (h : x.visit p = .ok () y) :
    ∃ declaration, x.source.declared? x.options p = .ok declaration ∧
      x.enforcing.visit p = match declaration.filter Declaration.isUndescribed with
        | none => .ok () y.enforcing
        | some d => .error (x.source.complain d.place .missingDescription) x.enforcing := by
  have hmodule :
      { x.options with enforceDescriptions := true }.moduleName = x.options.moduleName := rfl
  rw [visit_eq hm] at h
  rw [enforcing, visit_under hmodule hm]
  match hd : x.source.declared? x.options p with
  | .error e =>
    rw [hd] at h
    cases h
  | .ok none =>
    rw [hd] at h
    cases h
    refine ⟨none, rfl, ?_⟩
    rw [enforcing_warnIf]
    rfl
  | .ok (some d) =>
    rw [hd] at h
    refine ⟨some d, rfl, ?_⟩
    have haccept := accept_enforcing ho h
    rw [enforcing] at haccept
    simp only [haccept, Option.filter_some, Declaration.isUndescribed]
    split <;> simp_all

theorem visit_of_enforcing (ho : x.options.enforceDescriptions = false)
    (hm : ∀ q, subject? p = some q → x.isMarked q = false) (h : x.enforcing.visit p = .ok () z) :
    ∃ y, x.visit p = .ok () y := by
  have hmodule :
      { x.options with enforceDescriptions := true }.moduleName = x.options.moduleName := rfl
  rw [enforcing, visit_under hmodule hm, ← enforcing] at h
  rw [visit_eq hm]
  match hd : x.source.declared? x.options p with
  | .error e =>
    rw [hd] at h
    cases h
  | .ok none => exact ⟨_, rfl⟩
  | .ok (some d) =>
    rw [hd] at h
    exact accept_of_enforcing ho h

/-- Nodes that are visited without a failure are so with descriptions enforced, up to the first that
declares something without one. -/
theorem Reached.visitAll_enforcing (h : Reached s o before x)
    (ho : o.enforceDescriptions = false) (hs : s.places = before ++ ps)
    (hv : x.visitAll ps = (y, none)) :
    match (s.declaredBy o ps).find? Declaration.isUndescribed with
    | none => x.enforcing.visitAll ps = (y.enforcing, none)
    | some d => (x.enforcing.visitAll ps).2 = some (s.complain d.place .missingDescription) := by
  induction ps generalizing before x with
  | nil =>
    obtain rfl := (Prod.mk.inj hv).1
    rfl
  | cons p ps ih =>
    have hsplit : s.places = (before ++ [p]) ++ ps := by
      rw [List.append_assoc, List.singleton_append]
      exact hs
    rw [visitAll] at hv
    cases hx : x.visit p with
    | error e w =>
      rw [hx] at hv
      cases hv
    | ok _ w =>
      rw [hx] at hv
      have hw := ih ((h.stepsTo_visit hs).2 w hx) hsplit hv
      obtain ⟨declaration, hd, hvisit⟩ :=
        visit_enforcing (by rw [h.options, ho]) (h.unmarked hs) hx
      rw [h.source, h.options] at hd
      rw [h.source] at hvisit
      rw [declaredBy_cons s o ps hd, visitAll, hvisit]
      cases declaration with
      | none => exact hw
      | some d =>
        rw [Option.toList_some, List.singleton_append, List.find?_cons, Option.filter_some]
        cases d.isUndescribed with
        | true => rfl
        | false => exact hw

theorem Reached.visitAll_of_enforcing (h : Reached s o before x)
    (ho : o.enforceDescriptions = false) (hs : s.places = before ++ ps)
    (hv : x.enforcing.visitAll ps = (z, none)) : ∃ y, x.visitAll ps = (y, none) := by
  induction ps generalizing before x with
  | nil => exact ⟨x, rfl⟩
  | cons p ps ih =>
    have hsplit : s.places = (before ++ [p]) ++ ps := by
      rw [List.append_assoc, List.singleton_append]
      exact hs
    have hlax : x.options.enforceDescriptions = false := by rw [h.options, ho]
    have hm := h.unmarked hs
    rw [visitAll] at hv
    cases hz : x.enforcing.visit p with
    | error e w =>
      rw [hz] at hv
      cases hv
    | ok _ w =>
      -- the visit that enforces has gone through, so it has left what the other one leaves
      obtain ⟨y, hy⟩ := visit_of_enforcing hlax hm hz
      obtain ⟨declaration, -, hvisit⟩ := visit_enforcing hlax hm hy
      rw [hz] at hv hvisit
      rw [visitAll, hy]
      refine ih ((h.stepsTo_visit hs).2 y hy) hsplit ?_
      split at hvisit
      · cases hvisit
        exact hv
      · cases hvisit

theorem run_eq_ok_iff {r : FileResult} :
    x.run.2 = .ok r ↔ ∃ y, x.begin.traverse = (y, none) ∧ y.result none = r := by
  rw [run]
  rcases x.begin.traverse with ⟨y, _ | e⟩
  · simp [finish_snd]
  · simp

theorem run_eq_error_iff {e : Failure} : x.run.2 = .error e ↔ x.begin.traverse.2 = some e := by
  rw [run]
  rcases x.begin.traverse with ⟨y, _ | e⟩
  · simp
  · simp

theorem begin_enforcing (s : Source) (o : Options) :
    (fresh s { o with enforceDescriptions := true }).begin =
      (fresh s { o with enforceDescriptions := false }).begin.enforcing := rfl

theorem run_enforcing {r : FileResult}
    (h : (fresh s { o with enforceDescriptions := false }).run.2 = .ok r) :
    (fresh s { o with enforceDescriptions := true }).run.2 =
      match (s.declaredBy o s.places).find? Declaration.isUndescribed with
      | none => .ok r
      | some d => .error (s.complain d.place .missingDescription) := by
  obtain ⟨y, hy, hr⟩ := run_eq_ok_iff.mp h
  have hreached := reached_begin s { o with enforceDescriptions := false }
  have hplaces : s.places = [] ++ s.places := rfl
  have hvisit := hreached.visitAll_enforcing rfl hplaces hy
  rw [← begin_enforcing] at hvisit
  have hdeclared : s.declaredBy { o with enforceDescriptions := false } s.places =
      s.declaredBy o s.places := rfl
  rw [hdeclared] at hvisit
  split
  · rename_i hnone
    simp only [hnone] at hvisit
    exact run_eq_ok_iff.mpr ⟨y.enforcing, hvisit, hr⟩
  · rename_i d hd
    simp only [hd] at hvisit
    exact run_eq_error_iff.mpr hvisit

theorem run_of_enforcing {r : FileResult}
    (h : (fresh s { o with enforceDescriptions := true }).run.2 = .ok r) :
    (fresh s { o with enforceDescriptions := false }).run.2 = .ok r := by
  obtain ⟨z, hz, -⟩ := run_eq_ok_iff.mp h
  have hreached := reached_begin s { o with enforceDescriptions := false }
  obtain ⟨y, hy⟩ := hreached.visitAll_of_enforcing rfl rfl hz
  have hlax : (fresh s { o with enforceDescriptions := false }).run.2 = .ok (y.result none) :=
    run_eq_ok_iff.mpr ⟨y, hy, rfl⟩
  have hstrict := run_enforcing hlax
  rw [h] at hstrict
  split at hstrict
  · rw [hlax, hstrict]
  · cases hstrict

/-- Two runs over one source. Whether messages are stored with their places decides nothing else: up to
those places the runs end alike. A run that succeeds without enforcing descriptions ends with it in the
same result, or with a complaint at the first declaration that has none; and what succeeds with it has
the same result without. -/
theorem options_keep_content (s : Source) (o : Options) :
    (∀ located located' : Bool,
      (fresh s { o with keepLocation := located }).run.2.map FileResult.unlocated =
        (fresh s { o with keepLocation := located' }).run.2.map FileResult.unlocated) ∧
    (∀ r, (fresh s { o with enforceDescriptions := false }).run.2 = .ok r →
      (fresh s { o with enforceDescriptions := true }).run.2 =
        match (s.declaredBy o s.places).find? Declaration.isUndescribed with
        | none => .ok r
        | some d => .error (s.complain d.place .missingDescription)) ∧
    ∀ r, (fresh s { o with enforceDescriptions := true }).run.2 = .ok r →
      (fresh s { o with enforceDescriptions := false }).run.2 = .ok r := by
  refine ⟨?_, fun r ↦ run_enforcing, fun r ↦ run_of_enforcing⟩
  intro located located'
  rw [← run_unlocated s { o with keepLocation := located },
    ← run_unlocated s { o with keepLocation := located' }]

/-- A call names its message by the id alone. -/
def undescribedCall : Source :=
  (openedCall (stringCall "a" [.leaf "string_fragment" 19 20])).source

theorem undescribedCall_refused : ∃ r d,
    (fresh undescribedCall { Options.standard with enforceDescriptions := false }).run.2 = .ok r ∧
    (undescribedCall.declaredBy .standard undescribedCall.places).find? Declaration.isUndescribed =
      some d ∧
    (fresh undescribedCall { Options.standard with enforceDescriptions := true }).run.2 =
      .error (undescribedCall.complain d.place .missingDescription) := by
  have hrun : (fresh undescribedCall
      { Options.standard with enforceDescriptions := false }).run.2.toOption.isSome = true := by
    decide +kernel
  have hfind : ((undescribedCall.declaredBy .standard undescribedCall.places).find?
      Declaration.isUndescribed).isSome = true := by
    decide +kernel
  obtain ⟨d, hd⟩ := Option.isSome_iff_exists.mp hfind
  cases hr : (fresh undescribedCall { Options.standard with enforceDescriptions := false }).run.2 with
  | error e =>
    rw [hr] at hrun
    cases hrun
  | ok r =>
    have h := (options_keep_content undescribedCall .standard).2.1 r hr
    simp only [hd] at h
    exact ⟨r, d, rfl, hd, h⟩

end Extraction

end MessageExtraction
