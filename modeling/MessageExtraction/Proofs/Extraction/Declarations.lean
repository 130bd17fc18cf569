import MessageExtraction.Extraction.Run
import MessageExtraction.Proofs.Catalog.FirstDeclarations
import MessageExtraction.Proofs.Tree.Preorder

/-!
What a node of a source declares, said without the state of an extraction, and what a visit of the
node does with it.
-/

namespace MessageExtraction

namespace Source

/-- The kinds of nodes that open an element. -/
def elementKinds : List String := ["jsx_opening_element", "jsx_self_closing_element"]

/-- What the attributes of an element declare, if there is a default message among them. -/
def attributeDeclaration (s : Source) (p : Place) : Except Failure (Option Declaration) := do
  let fields ← s.collectFields (Extraction.attributes p)
  if (fields.lookup Descriptor.Field.defaultMessage).isNone then return none
  let d ← s.evaluateDescriptor fields
  return some ⟨d, p, (fields.lookup .description).bind (·.name.parent?)⟩

/-- What an element declares, if its name refers to a component for messages. -/
def elementDeclaration (s : Source) (o : Options) (p : Place) :
    Except Failure (Option Declaration) :=
  match p.field? "name" with
  | none => .ok none
  | some name => do
    match ← faulty (s.resolveImport name) with
    | none => return none
    | some (module, component) =>
      if module = o.moduleName ∧ component ∈ Extraction.components then s.attributeDeclaration p
      else return none

/-- What a call declares: it is of the function for messages, and its first argument is an id. -/
def callDeclaration (s : Source) (o : Options) (p : Place) : Except Failure (Option Declaration) :=
  match p.field? "function" with
  | none => .ok none
  | some callee => do
    if !(← (Extraction.fresh s o).isMessageCall callee) then return none
    match Extraction.arguments p with
    | [] => throw (s.complain p .missingArgument)
    | first :: _ => do
      let id ← (Extraction.fresh s o).literalId first
      return some ⟨{ Descriptor.empty with id := id }, first, none⟩

/-- What a node declares, or why it cannot. -/
def declared? (s : Source) (o : Options) (p : Place) : Except Failure (Option Declaration) :=
  if p.kind ∈ elementKinds then s.elementDeclaration o p
  else if p.kind = "call_expression" then s.callDeclaration o p
  else .ok none

/-- What is reported of an element that takes messages which are not extracted. -/
def notice? (s : Source) (o : Options) (p : Place) : Option Text :=
  if p.kind ∈ elementKinds then
    (p.field? "name").bind fun name ↦
      match s.resolveImport name with
      | .ok (some (module, component)) =>
        if module = o.moduleName ∧ Extraction.unsupportedComponents.contains component then
          some (Extraction.unsupportedWarning (s.startOf p).line component)
        else none
      | _ => none
  else none

/-- The node that a declaration at a node is recorded at. -/
def subject? (p : Place) : Option Place :=
  if p.kind ∈ elementKinds then some p
  else if p.kind = "call_expression" then (Extraction.arguments p).head?
  else none

theorem kind_mem_of_literalId {x : Extraction} {p : Place} {v : Value}
    (h : x.literalId p = .ok v) : p.kind = "string" ∨ p.kind = "number" := by
  unfold Extraction.literalId at h
  split at h
  · exact .inl (by assumption)
  · exact .inr (by assumption)
  · cases h

theorem mem_children_of_arguments {p q : Place} (h : (Extraction.arguments p).head? = some q) :
    ∃ l ∈ p.children, q ∈ l.children := by
  have hq := List.mem_of_head? h
  rw [Extraction.arguments] at hq
  split at hq
  · rename_i l hl
    split at hq
    · exact ⟨l, Place.mem_children_of_field? hl, Place.mem_children_of_mem_parts hq⟩
    · cases hq
  · cases hq

theorem mem_subtree_of_subject? {p q : Place} (h : subject? p = some q) : q ∈ p.subtree := by
  rw [subject?] at h
  split at h
  · rw [← Option.some.inj h]
    exact Place.self_mem_subtree p
  split at h
  · obtain ⟨l, hl, hq⟩ := mem_children_of_arguments h
    exact Place.mem_subtree_trans (Place.mem_subtree_of_mem_children hl)
      (Place.mem_subtree_of_mem_children hq)
  · cases h

theorem attributeDeclaration_eq_some {s : Source} {p : Place} {d : Declaration}
    (h : s.attributeDeclaration p = .ok (some d)) :
    ∃ fields descriptor, s.collectFields (Extraction.attributes p) = .ok fields ∧
      s.evaluateDescriptor fields = .ok descriptor ∧
      d = ⟨descriptor, p, (fields.lookup .description).bind (·.name.parent?)⟩ := by
  obtain ⟨fields, hf, h⟩ := bind_eq_ok.mp h
  split at h
  · cases pure_eq_ok.mp h
  · obtain ⟨descriptor, hd, h⟩ := bind_eq_ok.mp h
    exact ⟨fields, descriptor, hf, hd, (Option.some.inj (pure_eq_ok.mp h)).symm⟩

/-- What is declared comes from the attributes of an element or the first argument of a call. -/
theorem declared?_eq_some {s : Source} {o : Options} {p : Place} {d : Declaration}
    (h : s.declared? o p = .ok (some d)) :
    p.kind ∈ elementKinds ∧ s.attributeDeclaration p = .ok (some d) ∨
      p.kind = "call_expression" ∧ ∃ first rest id, Extraction.arguments p = first :: rest ∧
        (Extraction.fresh s o).literalId first = .ok id ∧
        d = ⟨{ Descriptor.empty with id := id }, first, none⟩ := by
  rw [declared?] at h
  split at h
  · rename_i he
    rw [elementDeclaration] at h
    split at h
    · cases h
    obtain ⟨r, -, h⟩ := bind_eq_ok.mp h
    split at h
    · cases pure_eq_ok.mp h
    split at h
    · exact .inl ⟨he, h⟩
    · cases pure_eq_ok.mp h
  split at h
  · rename_i hc
    rw [callDeclaration] at h
    split at h
    · cases h
    obtain ⟨isCall, -, h⟩ := bind_eq_ok.mp h
    split at h
    · cases pure_eq_ok.mp h
    split at h
    · exact absurd h throw_ne_ok
    · rename_i first rest ha
      obtain ⟨id, hid, h⟩ := bind_eq_ok.mp h
      exact .inr ⟨hc, first, rest, id, ha, hid, (Option.some.inj (pure_eq_ok.mp h)).symm⟩
  · cases h

/-- An element declares at itself, and a call at its first argument, which is a literal. -/
theorem declared?_cases {s : Source} {o : Options} {p : Place} {d : Declaration}
    (h : s.declared? o p = .ok (some d)) :
    p.kind ∈ elementKinds ∧ d.place = p ∨
      p.kind = "call_expression" ∧ (Extraction.arguments p).head? = some d.place ∧
        (d.place.kind = "string" ∨ d.place.kind = "number") := by
  obtain ⟨he, h⟩ | ⟨hc, first, rest, id, ha, hid, rfl⟩ := declared?_eq_some h
  · obtain ⟨fields, descriptor, -, -, rfl⟩ := attributeDeclaration_eq_some h
    exact .inl ⟨he, rfl⟩
  · rw [ha]
    exact .inr ⟨hc, rfl, kind_mem_of_literalId hid⟩

theorem subject?_of_declared? {s : Source} {o : Options} {p : Place} {d : Declaration}
    (h : s.declared? o p = .ok (some d)) : subject? p = some d.place := by
  rw [subject?]
  obtain ⟨he, hplace⟩ | ⟨hc, ha, -⟩ := declared?_cases h
  · rw [if_pos he, hplace]
  · rw [if_neg (by rw [hc]; decide), if_pos hc, ha]

/-- The declarations of nodes in order; a node that fails has none. -/
def declaredBy (s : Source) (o : Options) (ps : List Place) : List Declaration :=
  ps.filterMap fun p ↦
    match s.declared? o p with
    | .ok d => d
    | .error _ => none

/-- Whether anything is tried on a node. -/
def mayDeclare (p : Place) : Bool := elementKinds.contains p.kind || p.kind == "call_expression"

theorem kind_of_not_mayDeclare {p : Place} (h : ¬mayDeclare p = true) :
    p.kind ∉ elementKinds ∧ p.kind ≠ "call_expression" := by
  simpa [mayDeclare] using h

theorem declaredBy_filter (s : Source) (o : Options) (ps : List Place) :
    s.declaredBy o (ps.filter mayDeclare) = s.declaredBy o ps := by
  rw [declaredBy, List.filterMap_filter, declaredBy]
  congr 1
  funext p
  split
  · rfl
  · rename_i h
    obtain ⟨he, hc⟩ := kind_of_not_mayDeclare h
    rw [declared?, if_neg he, if_neg hc]

theorem declaredBy_append {s : Source} {o : Options} {d : Option Declaration} (ps : List Place)
    {p : Place} (h : s.declared? o p = .ok d) :
    s.declaredBy o (ps ++ [p]) = s.declaredBy o ps ++ d.toList := by
  rw [declaredBy, List.filterMap_append, List.filterMap_cons, h]
  cases d <;> rfl

end Source

namespace Extraction

open Source

variable {x : Extraction} {p : Place} {d : Declaration}

def withCatalog (x : Extraction) (c : Catalog) : Extraction := { x with catalog := some c }

/-- The state once a declaration is accepted with the catalog that it leads to. -/
def settle (x : Extraction) (c : Catalog) (d : Declaration) : Extraction :=
  (match d.description with
    | some a => (x.withCatalog c).remove a
    | none => x.withCatalog c).mark d.place

/-- A declaration is recorded, its description taken out and the node marked; if it is refused, all stays
as it is. -/
def accept (x : Extraction) (d : Declaration) : EStateM.Result Failure Extraction Unit :=
  match x.catalog with
  | none => .error (.fault .noCatalog) x
  | some c =>
    match c.put x.source x.options d.descriptor d.place with
    | .ok _ c' => .ok () (x.settle c' d)
    | .error e _ => .error e x

def warnIf (x : Extraction) (p : Place) : Option Text → Extraction
  | some m => x.warn m p
  | none => x

/-- What a visit of a node comes to, by what the node declares; of a node that declares nothing there may be
something to report. -/
inductive Visits (x : Extraction) (p : Place) : Except Failure (Option Declaration) → Prop
  | failed {e : Failure} : x.visit p = .error e x → Visits x p (.error e)
  | passed : x.visit p = .ok () (x.warnIf p (x.source.notice? x.options p)) → Visits x p (.ok none)
  | accepted {d : Declaration} : x.visit p = x.accept d → Visits x p (.ok (some d))

theorem visits_unchanged (hn : x.source.notice? x.options p = none) (hv : x.visit p = .ok () x) :
    x.Visits p (.ok none) :=
  .passed (by rw [hn]; exact hv)

theorem run_record (x : Extraction) (d : Descriptor) (p : Place) :
    (record d p).run x = match x.catalog with
      | none => .error (.fault .noCatalog) x
      | some c =>
        match c.put x.source x.options d p with
        | .ok _ c' => .ok () (x.withCatalog c')
        | .error e _ => .error e x := by
  have hrun : (record d p).run x =
      ((onCatalog (Catalog.declare x.source x.options d p)).run x).map fun _ ↦ () := rfl
  rw [hrun, EStateM.run, onCatalog]
  cases hc : x.catalog with
  | none => rfl
  | some c =>
    have hput : (Catalog.declare x.source x.options d p).run c = c.put x.source x.options d p := rfl
    simp only [hput]
    cases hput : c.put x.source x.options d p with
    | ok m c' => rfl
    | error e c' =>
      have hx : x.withCatalog c' = x := by rw [Catalog.eq_of_put_eq_error hput, withCatalog, ← hc]
      exact congrArg (EStateM.Result.error e) hx

/-- What is recorded, taken out and marked one after the other is a declaration that is accepted. -/
theorem run_declaration {work : Work Unit} (hrun : ∀ y, work.run y = .ok () (match d.description with
      | some a => y.remove a
      | none => y)) :
    (do record d.descriptor d.place; work; modify fun y ↦ y.mark d.place : Work Unit).run x =
      x.accept d := by
  rw [EStateM.run_bind, run_record, accept]
  cases x.catalog with
  | none => rfl
  | some c =>
    dsimp only
    cases c.put x.source x.options d.descriptor d.place with
    | ok m c' =>
      simp only [EStateM.run_bind, hrun, EStateM.run_modify]
      rfl
    | error e c' => rfl

theorem visit_of_recognizer {recognizer : Place → Work Unit} (h : recognizers p.kind = [recognizer]) :
    x.visit p = (recognizer p).run x := by
  have hrun : x.visit p = (recognizer p >>= fun _ ↦ pure () : Work Unit).run x := by rw [visit, h]; rfl
  rw [hrun, EStateM.run_bind]
  cases (recognizer p).run x <;> rfl

theorem recognizers_of_element (h : p.kind ∈ elementKinds) :
    recognizers p.kind = [visitElement] := by
  obtain h | h := List.mem_pair.mp h <;> rw [h] <;> rfl

theorem visit_of_other (he : p.kind ∉ elementKinds) (hc : p.kind ≠ "call_expression") :
    x.visit p = .ok () x := by
  have hr : recognizers p.kind = [] := by
    unfold recognizers
    split <;> simp_all [elementKinds]
  rw [visit, hr]
  rfl

theorem visitAll_filter (x : Extraction) (ps : List Place) :
    x.visitAll (ps.filter mayDeclare) = x.visitAll ps := by
  induction ps generalizing x with
  | nil => rfl
  | cons p ps ih =>
    rw [List.filter_cons]
    split
    · rw [visitAll, visitAll]
      split
      · exact ih _
      · rfl
    · rename_i h
      obtain ⟨he, hc⟩ := kind_of_not_mayDeclare h
      rw [ih, visitAll, visit_of_other he hc]

theorem visits_attributes (hn : x.source.notice? x.options p = none)
    (hv : x.visit p = (declareElement p).run x) :
    x.Visits p (x.source.attributeDeclaration p) := by
  rw [declareElement, EStateM.run_bind, EStateM.run_get] at hv
  simp only [EStateM.run_bind] at hv
  rw [attributeDeclaration]
  cases hf : x.source.collectFields (attributes p) with
  | error e =>
    rw [hf] at hv
    exact .failed hv
  | ok fields =>
    rw [hf, run_liftExcept_ok] at hv
    rw [ok_bind]
    dsimp only at hv
    split
    · rename_i hd
      rw [if_pos hd] at hv
      exact visits_unchanged hn hv
    · rename_i hd
      rw [if_neg hd, EStateM.run_bind] at hv
      cases he : x.source.evaluateDescriptor fields with
      | error e =>
        rw [he] at hv
        exact .failed hv
      | ok descriptor =>
        rw [he, run_liftExcept_ok] at hv
        refine .accepted (hv.trans ?_)
        exact run_declaration
          (d := ⟨descriptor, p, (fields.lookup .description).bind (·.name.parent?)⟩) fun y ↦ rfl

theorem visits_component {module component : Text} (hmodule : module = x.options.moduleName)
    (hn : x.source.notice? x.options p =
      if module = x.options.moduleName ∧ unsupportedComponents.contains component then
        some (unsupportedWarning (x.source.startOf p).line component)
      else none)
    (hv : x.visit p =
      if unsupportedComponents.contains component = true then
        .ok () (x.warn (unsupportedWarning (x.source.startOf p).line component) p)
      else if components.contains component = true then (declareElement p).run x
      else .ok () x) :
    x.Visits p (if module = x.options.moduleName ∧ component ∈ components then
      x.source.attributeDeclaration p else pure none) := by
  by_cases hu : unsupportedComponents.contains component = true
  · have hdisjoint : ∀ c ∈ unsupportedComponents, c ∉ components := by decide
    rw [if_neg fun h ↦ hdisjoint component (List.contains_iff_mem.mp hu) h.2]
    rw [if_pos ⟨hmodule, hu⟩] at hn
    rw [if_pos hu] at hv
    exact .passed (by rw [hn]; exact hv)
  · rw [if_neg fun h ↦ hu h.2] at hn
    rw [if_neg hu] at hv
    by_cases hc : component ∈ components
    · rw [if_pos (List.contains_iff_mem.mpr hc)] at hv
      rw [if_pos ⟨hmodule, hc⟩]
      exact visits_attributes hn hv
    · rw [if_neg (mt List.contains_iff_mem.mp hc)] at hv
      rw [if_neg fun h ↦ hc h.2]
      exact visits_unchanged hn hv

/-- What a visit of an element comes to, by the component that its name refers to. -/
theorem run_visitElement (hm : x.isMarked p = false) :
    (visitElement p).run x = match x.component? p with
      | .error e => .error e x
      | .ok none => .ok () x
      | .ok (some component) =>
        if unsupportedComponents.contains component = true then
          .ok () (x.warn (unsupportedWarning (x.source.startOf p).line component) p)
        else if components.contains component = true then (declareElement p).run x
        else .ok () x := by
  rw [visitElement, EStateM.run_bind, EStateM.run_get]
  dsimp only
  rw [hm, if_neg Bool.false_ne_true, EStateM.run_bind]
  cases x.component? p with
  | error e => rfl
  | ok found =>
    cases found with
    | none => rfl
    | some component =>
      rw [run_liftExcept_ok]
      dsimp only
      split
      · rfl
      split <;> rfl

theorem visits_element (hm : x.isMarked p = false) (h : p.kind ∈ elementKinds) :
    x.Visits p (x.source.elementDeclaration x.options p) := by
  have hv := (visit_of_recognizer (recognizers_of_element h)).trans (run_visitElement hm)
  have hn : x.source.notice? x.options p = _ := if_pos h
  rw [component?] at hv
  rw [elementDeclaration]
  cases hname : p.field? "name" with
  | none =>
    rw [hname] at hn hv
    exact visits_unchanged hn hv
  | some name =>
    simp only [hname, Option.bind_some] at hn hv ⊢
    cases hr : x.source.resolveImport name with
    | error e =>
      rw [hr] at hv
      exact .failed hv
    | ok resolved =>
      rw [hr] at hn hv
      have hfaulty : faulty (.ok resolved) = (.ok resolved : Except Failure _) := rfl
      rw [hfaulty, ok_bind] at hv ⊢
      cases resolved with
      | none => exact visits_unchanged hn hv
      | some r =>
        obtain ⟨module, component⟩ := r
        by_cases hmodule : module = x.options.moduleName
        · simp only [if_pos hmodule] at hv
          exact visits_component hmodule hn hv
        · simp only [hmodule, false_and, if_false] at hn hv ⊢
          exact visits_unchanged hn hv

/-- What a visit of a call comes to, by what it calls and by its first argument. -/
theorem run_visitCall {callee : Place} (hf : p.field? "function" = some callee) :
    (visitCall p).run x = match x.isMessageCall callee with
      | .error e => .error e x
      | .ok false => .ok () x
      | .ok true =>
        match arguments p with
        | [] => .error (x.source.complain p .missingArgument) x
        | first :: _ =>
          if x.isMarked first = true then .ok () x
          else match x.literalId first with
            | .error e => .error e x
            | .ok id => x.accept ⟨{ Descriptor.empty with id := id }, first, none⟩ := by
  simp only [visitCall, hf, EStateM.run_bind, EStateM.run_get]
  cases x.isMessageCall callee with
  | error e => rfl
  | ok isCall =>
    cases isCall with
    | false => rfl
    | true =>
      simp only [run_liftExcept_ok, Bool.not_true, Bool.false_eq_true, if_false]
      cases arguments p with
      | nil => rfl
      | cons first rest =>
        dsimp only
        split
        · rfl
        · rw [EStateM.run_bind]
          cases x.literalId first with
          | error e => rfl
          | ok id =>
            have hnothing (y : Extraction) : (pure () : Work Unit).run y = .ok () y := rfl
            exact run_declaration (d := ⟨{ Descriptor.empty with id := id }, first, none⟩) hnothing

theorem visits_call (hm : ∀ q, (arguments p).head? = some q → x.isMarked q = false)
    (h : p.kind = "call_expression") : x.Visits p (x.source.callDeclaration x.options p) := by
  have hn : x.source.notice? x.options p = none := if_neg (by rw [h]; decide)
  have hv : x.visit p = (visitCall p).run x := visit_of_recognizer (by rw [h]; rfl)
  rw [callDeclaration]
  cases hf : p.field? "function" with
  | none =>
    rw [visitCall, hf] at hv
    exact visits_unchanged hn hv
  | some callee =>
    have hcall : (fresh x.source x.options).isMessageCall callee = x.isMessageCall callee := rfl
    rw [run_visitCall hf] at hv
    simp only [hcall]
    cases hc : x.isMessageCall callee with
    | error e =>
      rw [hc] at hv
      exact .failed hv
    | ok isCall =>
      rw [ok_bind]
      cases isCall with
      | false =>
        rw [hc] at hv
        exact visits_unchanged hn hv
      | true =>
        cases ha : arguments p with
        | nil =>
          rw [hc, ha] at hv
          exact .failed hv
        | cons first rest =>
          have hfirst : x.isMarked first = false := hm first (by rw [ha]; rfl)
          have hid : (fresh x.source x.options).literalId first = x.literalId first := rfl
          simp only [hc, ha, hfirst, Bool.false_eq_true, if_false] at hv
          simp only [hid]
          cases hl : x.literalId first with
          | error e =>
            rw [hl] at hv
            exact .failed hv
          | ok id =>
            rw [hl] at hv
            exact .accepted hv

/-- A visit of a node that was not marked before does what the declaration of the node says. -/
theorem visits_declared (hm : ∀ q, subject? p = some q → x.isMarked q = false) :
    x.Visits p (x.source.declared? x.options p) := by
  rw [declared?]
  rw [subject?] at hm
  by_cases he : p.kind ∈ elementKinds
  · rw [if_pos he] at hm ⊢
    exact visits_element (hm p rfl) he
  · rw [if_neg he] at hm ⊢
    by_cases hc : p.kind = "call_expression"
    · rw [if_pos hc] at hm ⊢
      exact visits_call hm hc
    · rw [if_neg hc]
      exact visits_unchanged (if_neg he) (visit_of_other he hc)

/-- A visit of a node whose subject is marked has no effect; it can only fail, for a reason that does
not lie in the mark. -/
theorem visit_of_marked {q : Place} (hq : subject? p = some q) (hm : x.isMarked q = true) :
    x.visit p = .ok () x ∨
      ∃ e, x.visit p = .error e x ∧ x.source.declared? x.options p = .error e := by
  rw [subject?] at hq
  split at hq
  · rename_i he
    obtain rfl := Option.some.inj hq
    left
    rw [visit_of_recognizer (recognizers_of_element he), visitElement, EStateM.run_bind, EStateM.run_get]
    dsimp only
    rw [if_pos hm]
    rfl
  split at hq
  · rename_i he hc
    obtain ⟨rest, ha⟩ := List.head?_eq_some_iff.mp hq
    have hv : x.visit p = (visitCall p).run x := visit_of_recognizer (by rw [hc]; rfl)
    rw [hv, declared?, if_neg he, if_pos hc, callDeclaration]
    cases hf : p.field? "function" with
    | none =>
      rw [visitCall, hf]
      exact .inl rfl
    | some callee =>
      have hcall : (fresh x.source x.options).isMessageCall callee = x.isMessageCall callee := rfl
      rw [run_visitCall hf]
      simp only [hcall, ha, hm]
      cases x.isMessageCall callee with
      | error e => exact .inr ⟨e, rfl, rfl⟩
      | ok isCall => cases isCall <;> exact .inl rfl
  · cases hq

theorem accept_eq {c : Catalog} (d : Declaration) (hc : x.catalog = some c) :
    x.accept d = match c.put x.source x.options d.descriptor d.place with
      | .ok _ c' => .ok () (x.settle c' d)
      | .error e _ => .error e x := by
  simp only [accept, hc]

theorem settle_of_accept {y : Extraction} (h : x.accept d = .ok () y) :
    ∃ (c c' : Catalog) (m : Message), x.catalog = some c ∧
      c.put x.source x.options d.descriptor d.place = .ok m c' ∧ y = x.settle c' d := by
  cases hc : x.catalog with
  | none =>
    rw [accept, hc] at h
    cases h
  | some c =>
    rw [accept_eq d hc] at h
    cases hput : c.put x.source x.options d.descriptor d.place with
    | error e c' =>
      rw [hput] at h
      cases h
    | ok m c' =>
      rw [hput] at h
      cases h
      exact ⟨c, c', m, rfl, hput, rfl⟩

theorem eq_of_accept_eq_error {e : Failure} {y : Extraction} (h : x.accept d = .error e y) : y = x := by
  rw [accept] at h
  split at h
  · cases h
    rfl
  · split at h <;> cases h
    rfl

/-- What a visit has done: nothing if it has failed, and otherwise nothing as well, or it has warned, or it
has recorded a declaration at a node that was not marked. -/
inductive Visited (x : Extraction) (p : Place) : EStateM.Result Failure Extraction Unit → Prop
  | failed (e : Failure) : Visited x p (.error e x)
  | unchanged : Visited x p (.ok () x)
  | warned (m : Text) : Visited x p (.ok () (x.warn m p))
  | recorded {c c' : Catalog} {m : Message} {d : Declaration} : x.catalog = some c →
      x.isMarked d.place = false → x.source.declared? x.options p = .ok (some d) →
      c.put x.source x.options d.descriptor d.place = .ok m c' → Visited x p (.ok () (x.settle c' d))

theorem visited_warnIf (x : Extraction) (p : Place) (m : Option Text) :
    x.Visited p (.ok () (x.warnIf p m)) := by
  cases m with
  | none => exact .unchanged
  | some m => exact .warned m

theorem visited_visit (x : Extraction) (p : Place) : x.Visited p (x.visit p) := by
  -- Without a mark a visit does what its node declares; with one it does nothing.
  by_cases hm : ∀ q, subject? p = some q → x.isMarked q = false
  · have hvisits := visits_declared hm
    generalize hdeclared : x.source.declared? x.options p = outcome at hvisits
    cases hvisits with
    | failed hv => exact hv ▸ .failed _
    | passed hv => exact hv ▸ visited_warnIf ..
    | @accepted d hv =>
      cases ha : x.accept d with
      | ok _ y =>
        obtain ⟨c, c', m, hc, hput, rfl⟩ := settle_of_accept ha
        exact hv ▸ ha ▸ .recorded hc (hm d.place (subject?_of_declared? hdeclared)) hdeclared hput
      | error e y =>
        obtain rfl := eq_of_accept_eq_error ha
        exact hv ▸ ha ▸ .failed e
  · simp only [not_forall, Bool.not_eq_false] at hm
    obtain ⟨q, hq, hm⟩ := hm
    obtain hv | ⟨e, hv, -⟩ := visit_of_marked hq hm
    · exact hv ▸ .unchanged
    · exact hv ▸ .failed e

/-- A visit that fails leaves the state as it was. -/
theorem eq_of_visit_eq_error {e : Failure} {y : Extraction} (h : x.visit p = .error e y) : y = x := by
  have hvisited := x.visited_visit p
  rw [h] at hvisited
  cases hvisited
  rfl

end Extraction

end MessageExtraction
