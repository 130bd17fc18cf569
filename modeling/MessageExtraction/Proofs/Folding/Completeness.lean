import Mathlib.Order.Filter.AtTopBot.Basic
import MessageExtraction.Proofs.Folding.Derivation
import MessageExtraction.Proofs.Scope.Declarators

namespace MessageExtraction

open Folding Filter

namespace Source

variable {s : Source}

/-- The value of an expression, given the values of the constants that it refers to. -/
def foldFrom (s : Source) (follow : Binding → Place → Outcome) (p : Place) : Outcome :=
  rule s p (fun q ↦ s.foldFrom follow q.1) follow
termination_by sizeOf p.node
decreasing_by exact q.2

theorem settles_foldFrom {follow follow' : Binding → Place → Outcome}
    (h : ∀ b q, Settles (follow b q) (follow' b q)) (p : Place) :
    Settles (s.foldFrom follow p) (s.foldFrom follow' p) := by
  rw [foldFrom, foldFrom]
  refine settles_rule (fun q ↦ ?_) h
  have := q.2
  exact settles_foldFrom h q.1
termination_by sizeOf p.node

open Classical in
/-- A constant that is declared in the source is followed, and those in its initial value so many
deep. -/
noncomputable def followTo (s : Source) : Nat → Binding → Place → Outcome
  | 0, _, _ => .error .notConstant
  | n + 1, b, value =>
    if s.Declares b value then s.foldFrom (s.followTo n) value else .error .notConstant

end Source

namespace Folding

open Place

/-- The places that a judgement is about are places of a source. -/
def Judgement.IsIn (s : Source) : Judgement → Prop
  | .value p _ | .name p _ => p ∈ s.places
  | .pieces ps _ | .items ps _ | .members ps _ _ => ∀ p ∈ ps, p ∈ s.places

/-- What a judgement says is what comes out, given the values of constants. -/
def Judgement.Holds (s : Source) (follow : Binding → Place → Outcome) : Judgement → Prop
  | .value p v => s.foldFrom follow p = .ok v
  | .name p v => ofName s follow p = .ok v
  | .pieces ps ts => ∀ (p : Place) (l : List (Inner p)), l.map Subtype.val = ps →
      l.mapM (templatePiece s p fun q ↦ s.foldFrom follow q.1) = .ok ts
  | .items ps vs => ∀ (p : Place) (l : List (Inner p)), l.map Subtype.val = ps →
      (l.mapM fun c ↦ if c.1.kind = "spread_element" then Except.error Stop.notConstant
        else s.foldFrom follow c.1) = .ok vs
  | .members ps before after => ∀ (p : Place) (l : List (Inner p)), l.map Subtype.val = ps →
      l.foldlM (addMember s p (fun q ↦ s.foldFrom follow q.1) (ofName s follow)) before = .ok after

namespace Judgement

variable {s : Source} {follow : Binding → Place → Outcome} {p : Place} {v w : Value}

theorem holds_wrapper {q : Place} {rest : List Place} (hw : p.isWrapper = true)
    (hq : p.parts = q :: rest) (h : Holds s follow (.value q v)) : Holds s follow (.value p v) := by
  rw [← map_val_partsOf] at hq
  obtain ⟨q', l, hl, rfl, -⟩ := List.map_eq_cons_iff.mp hq
  rw [Holds, Source.foldFrom, rule, if_pos hw, hl]
  exact h

theorem not_isWrapper_of_kind {kind : String} (hk : p.kind = kind)
    (h : wrapperKinds.contains kind = false) : ¬p.isWrapper = true := by
  rw [isWrapper, hk, h]
  exact Bool.false_ne_true

theorem holds_string {t : Text} (hk : p.kind = "string") (ht : s.stringValue p = .ok t) :
    Holds s follow (.value p (.text t)) := by
  rw [Holds, Source.foldFrom, rule, if_neg (not_isWrapper_of_kind hk (by decide))]
  simp only [hk]
  exact bind_eq_ok.mpr ⟨t, lift_eq_ok.mpr ht, rfl⟩

theorem holds_number {n : Number.Literal} (hk : p.kind = "number") (hn : s.numberValue p = .ok n) :
    Holds s follow (.value p (.ofLiteral n)) := by
  rw [Holds, Source.foldFrom, rule, if_neg (not_isWrapper_of_kind hk (by decide))]
  simp only [hk]
  exact bind_eq_ok.mpr ⟨n, lift_eq_ok.mpr hn, rfl⟩

theorem holds_literal {kind : String} (hk : p.kind = kind)
    (h : (kind, v) ∈ [("true", Value.bool true), ("false", .bool false), ("null", .null),
      ("undefined", .undefined)]) : Holds s follow (.value p v) := by
  simp only [List.mem_cons, Prod.mk.injEq, List.not_mem_nil, or_false] at h
  obtain ⟨rfl, rfl⟩ | ⟨rfl, rfl⟩ | ⟨rfl, rfl⟩ | ⟨rfl, rfl⟩ := h <;>
  · rw [Holds, Source.foldFrom, rule, if_neg (not_isWrapper_of_kind hk (by decide))]
    simp only [hk]

theorem holds_template {ts : List Text} (hk : p.kind = "template_string")
    (h : Holds s follow (.pieces p.children ts)) : Holds s follow (.value p (.text ts.flatten)) := by
  rw [Holds, Source.foldFrom, rule, if_neg (not_isWrapper_of_kind hk (by decide))]
  simp only [hk]
  exact bind_eq_ok.mpr ⟨ts, h p _ (map_val_childrenOf p), rfl⟩

theorem holds_identifier (hk : p.kind = "identifier") (h : Holds s follow (.name p v)) :
    Holds s follow (.value p v) := by
  rw [Holds, Source.foldFrom, rule, if_neg (not_isWrapper_of_kind hk (by decide))]
  simp only [hk]
  exact h

theorem holds_embedded {q : Place} (hk : p.kind = "jsx_expression") (hq : p.parts = [q])
    (h : Holds s follow (.value q v)) : Holds s follow (.value p v) := by
  have hc : q ∈ p.parts := hq ▸ List.mem_singleton_self q
  rw [Holds, Source.foldFrom, rule, if_neg (not_isWrapper_of_kind hk (by decide))]
  simp only [hk]
  exact ofOnlyPart_eq_ok.mpr ⟨.ofPart hc, hq, h⟩

theorem holds_binary {operator l r : Place} {u : Value} (hk : p.kind = "binary_expression")
    (ho : p.field? "operator" = some operator) (hl : p.field? "left" = some l)
    (hr : p.field? "right" = some r) (hu : Holds s follow (.value l u))
    (h : leftSettles? operator.kind u = some true ∧ u = v ∨
      leftSettles? operator.kind u = some false ∧ Holds s follow (.value r v) ∨
      leftSettles? operator.kind u = none ∧
        ∃ w, Holds s follow (.value r w) ∧ operate operator.kind u w = .ok v) :
    Holds s follow (.value p v) := by
  rw [Holds, Source.foldFrom, rule, if_neg (not_isWrapper_of_kind hk (by decide))]
  simp only [hk]
  exact ofBinary_eq_ok.mpr
    ⟨.ofField ho, .ofField hl, .ofField hr, ho, hl, hr, u, hu, h⟩

theorem holds_void {operator argument : Place} (hk : p.kind = "unary_expression")
    (ho : p.field? "operator" = some operator) (ha : p.field? "argument" = some argument)
    (hop : operator.kind = "void") : Holds s follow (.value p .undefined) := by
  rw [Holds, Source.foldFrom, rule, if_neg (not_isWrapper_of_kind hk (by decide))]
  simp only [hk, ofUnary, fieldOf?_of_field? ho, fieldOf?_of_field? ha, Inner.ofField, hop, if_true]

theorem holds_unary {operator argument : Place} (hk : p.kind = "unary_expression")
    (ho : p.field? "operator" = some operator) (ha : p.field? "argument" = some argument)
    (hop : operator.kind ≠ "void") (hv : Holds s follow (.value argument v))
    (h : operateAlone operator.kind v = .ok w) : Holds s follow (.value p w) := by
  rw [Holds, Source.foldFrom, rule, if_neg (not_isWrapper_of_kind hk (by decide))]
  simp only [hk, ofUnary, fieldOf?_of_field? ho, fieldOf?_of_field? ha, Inner.ofField, hop, if_false]
  exact bind_eq_ok.mpr ⟨v, hv, h⟩

theorem holds_ternary {condition branch : Place} (hk : p.kind = "ternary_expression")
    (hc : p.field? "condition" = some condition) (hv : Holds s follow (.value condition v))
    (hb : p.field? (if v.isTruthy then "consequence" else "alternative") = some branch)
    (hw : Holds s follow (.value branch w)) : Holds s follow (.value p w) := by
  rw [Holds, Source.foldFrom, rule, if_neg (not_isWrapper_of_kind hk (by decide))]
  simp only [hk]
  refine bind_eq_ok.mpr ⟨v, ofField_eq_ok.mpr ?_, ofField_eq_ok.mpr ?_⟩
  · exact ⟨.ofField hc, hc, hv⟩
  · exact ⟨.ofField hb, hb, hw⟩

theorem holds_object {members : List (Text × Value)} (hk : p.kind = "object")
    (h : Holds s follow (.members p.parts [] members)) :
    Holds s follow (.value p (.object members)) := by
  rw [Holds, Source.foldFrom, rule, if_neg (not_isWrapper_of_kind hk (by decide))]
  simp only [hk]
  exact bind_eq_ok.mpr ⟨members, h p _ (map_val_partsOf p), rfl⟩

theorem holds_array {vs : List Value} (hk : p.kind = "array")
    (h : Holds s follow (.items p.parts vs)) : Holds s follow (.value p (.list vs)) := by
  rw [Holds, Source.foldFrom, rule, if_neg (not_isWrapper_of_kind hk (by decide))]
  simp only [hk]
  exact bind_eq_ok.mpr ⟨vs, h p _ (map_val_partsOf p), rfl⟩

theorem holds_pieces_cons {c : Place} {cs : List Place} {t : Text} {ts : List Text}
    (hc : ∀ (p : Place) (h : sizeOf c.node < sizeOf p.node),
      templatePiece s p (fun q ↦ s.foldFrom follow q.1) ⟨c, h⟩ = .ok t)
    (h : Holds s follow (.pieces cs ts)) : Holds s follow (.pieces (c :: cs) (t :: ts)) := by
  intro p l hl
  obtain ⟨⟨c, hlt⟩, l, rfl, rfl, hrest⟩ := List.map_eq_cons_iff.mp hl
  exact mapM_eq_ok.mpr (.cons (hc p hlt) (mapM_eq_ok.mp (h p l hrest)))

theorem holds_items_cons {c : Place} {cs : List Place} {vs : List Value}
    (hk : c.kind ≠ "spread_element") (hv : Holds s follow (.value c v))
    (h : Holds s follow (.items cs vs)) : Holds s follow (.items (c :: cs) (v :: vs)) := by
  intro p l hl
  obtain ⟨⟨c, hlt⟩, l, rfl, rfl, hrest⟩ := List.map_eq_cons_iff.mp hl
  exact mapM_eq_ok.mpr (.cons (by rw [if_neg hk]; exact hv) (mapM_eq_ok.mp (h p l hrest)))

theorem holds_members_cons {c : Place} {cs : List Place} {before mid after : List (Text × Value)}
    (hc : ∀ (p : Place) (h : sizeOf c.node < sizeOf p.node),
      addMember s p (fun q ↦ s.foldFrom follow q.1) (ofName s follow) before ⟨c, h⟩ = .ok mid)
    (h : Holds s follow (.members cs mid after)) :
    Holds s follow (.members (c :: cs) before after) := by
  intro p l hl
  obtain ⟨⟨c, hlt⟩, l, rfl, rfl, hrest⟩ := List.map_eq_cons_iff.mp hl
  rw [List.foldlM_cons]
  exact bind_eq_ok.mpr ⟨mid, hc p hlt, h p l hrest⟩

end Judgement

open Judgement in
/-- What can be derived comes out once constants are followed deep enough. -/
theorem eventually_holds {s : Source} {j : Judgement} (h : Derives s j) (hj : j.IsIn s) :
    ∀ᶠ n in atTop, j.Holds s (s.followTo n) := by
  induction h with
  | wrapper hw hq _ ih =>
    filter_upwards [ih (Source.mem_places_of_mem_parts hj (hq ▸ List.mem_cons_self))] with n h
    exact holds_wrapper hw hq h
  | string hk ht => exact .of_forall fun n ↦ holds_string hk ht
  | template hk _ ih =>
    filter_upwards [ih fun c hc ↦ Source.mem_places_of_mem_children hj hc] with n h
    exact holds_template hk h
  | number hk hn => exact .of_forall fun n ↦ holds_number hk hn
  | yes hk => exact .of_forall fun n ↦ holds_literal hk (by simp)
  | no hk => exact .of_forall fun n ↦ holds_literal hk (by simp)
  | null hk => exact .of_forall fun n ↦ holds_literal hk (by simp)
  | undefined hk => exact .of_forall fun n ↦ holds_literal hk (by simp)
  | identifier hk _ ih =>
    filter_upwards [ih hj] with n h
    exact holds_identifier hk h
  | embedded hk hq _ ih =>
    filter_upwards [ih (Source.mem_places_of_mem_parts hj (hq ▸ List.mem_singleton_self _))]
      with n h
    exact holds_embedded hk hq h
  | left hk ho hl hr _ hs ih =>
    filter_upwards [ih (Source.mem_places_of_field? hj hl)] with n h
    exact holds_binary hk ho hl hr h (.inl ⟨hs, rfl⟩)
  | right hk ho hl hr _ hs _ ihl ihr =>
    filter_upwards [ihl (Source.mem_places_of_field? hj hl),
      ihr (Source.mem_places_of_field? hj hr)] with n h h'
    exact holds_binary hk ho hl hr h (.inr (.inl ⟨hs, h'⟩))
  | binary hk ho hl hr _ hs _ hop ihl ihr =>
    filter_upwards [ihl (Source.mem_places_of_field? hj hl),
      ihr (Source.mem_places_of_field? hj hr)] with n h h'
    exact holds_binary hk ho hl hr h (.inr (.inr ⟨hs, _, h', hop⟩))
  | void hk ho ha hop => exact .of_forall fun n ↦ holds_void hk ho ha hop
  | unary hk ho ha hop _ hv ih =>
    filter_upwards [ih (Source.mem_places_of_field? hj ha)] with n h
    exact holds_unary hk ho ha hop h hv
  | ternary hk hc _ hb _ ihc ihb =>
    filter_upwards [ihc (Source.mem_places_of_field? hj hc),
      ihb (Source.mem_places_of_field? hj hb)] with n h h'
    exact holds_ternary hk hc h hb h'
  | object hk _ ih =>
    filter_upwards [ih fun c hc ↦ Source.mem_places_of_mem_parts hj hc] with n h
    exact holds_object hk h
  | array hk _ ih =>
    filter_upwards [ih fun c hc ↦ Source.mem_places_of_mem_parts hj hc] with n h
    exact holds_array hk h
  | globalName hname hb hg =>
    exact .of_forall fun n ↦ ofName_eq_ok.mpr ⟨_, hname, .inl ⟨hb, hg⟩⟩
  | @constant p value name b v hname hb hv hc _ ih =>
    -- Only here does the depth grow: the initial value is one constant further away than the name.
    have hd : s.Declares b value := Source.declares_of_lookup hj hb hv
    obtain ⟨n, hn⟩ := eventually_atTop.mp (ih hd.value_mem)
    refine eventually_atTop.mpr ⟨n + 1, fun m hm ↦ ?_⟩
    obtain ⟨m, rfl⟩ : ∃ k, m = k + 1 := ⟨m - 1, by omega⟩
    refine ofName_eq_ok.mpr ⟨name, hname, .inr ⟨b, value, hb, hv, hc, ?_⟩⟩
    rw [Source.followTo, if_pos hd]
    exact hn m (by omega)
  | noPieces =>
    refine .of_forall fun n p l hl ↦ ?_
    rw [List.map_eq_nil_iff.mp hl]
    rfl
  | backquote hk _ ih =>
    filter_upwards [ih (List.forall_mem_cons.mp hj).2] with n h
    refine holds_pieces_cons (fun p hp ↦ ?_) h
    simp only [templatePiece, hk]
  | escape hk ht hu _ ih =>
    filter_upwards [ih (List.forall_mem_cons.mp hj).2] with n h
    refine holds_pieces_cons (fun p hp ↦ ?_) h
    simp only [templatePiece, hk]
    exact bind_eq_ok.mpr ⟨_, lift_eq_ok.mpr ht, lift_eq_ok.mpr hu⟩
  | @substitution c q cs v t ts hk hq _ ht _ ihv ih =>
    have hc : q ∈ c.parts := hq ▸ List.mem_singleton_self _
    filter_upwards [ihv (Source.mem_places_of_mem_parts (List.forall_mem_cons.mp hj).1 hc),
      ih (List.forall_mem_cons.mp hj).2] with n hv h
    refine holds_pieces_cons (fun p hp ↦ ?_) h
    simp only [templatePiece, hk]
    refine bind_eq_ok.mpr ⟨v, ofOnlyPart_eq_ok.mpr ?_, lift_eq_ok.mpr ht⟩
    exact ⟨.ofPart hc, hq, hv⟩
  | fragment h₁ h₂ h₃ ht _ ih =>
    filter_upwards [ih (List.forall_mem_cons.mp hj).2] with n h
    refine holds_pieces_cons (fun p hp ↦ ?_) h
    unfold templatePiece
    split
    · contradiction
    · contradiction
    · contradiction
    · exact lift_eq_ok.mpr ht
  | noItems =>
    refine .of_forall fun n p l hl ↦ ?_
    rw [List.map_eq_nil_iff.mp hl]
    rfl
  | item hk _ _ ihv ih =>
    filter_upwards [ihv (List.forall_mem_cons.mp hj).1, ih (List.forall_mem_cons.mp hj).2] with n hv h
    exact holds_items_cons hk hv h
  | noMembers =>
    refine .of_forall fun n p l hl ↦ ?_
    rw [List.map_eq_nil_iff.mp hl]
    rfl
  | @pair c key value cs name v before after hk hkey hvalue hname _ _ ihv ih =>
    obtain ⟨hc, hcs⟩ := List.forall_mem_cons.mp hj
    filter_upwards [ihv (Source.mem_places_of_field? hc hvalue), ih hcs] with n hv h
    refine holds_members_cons (fun p hp ↦ ?_) h
    simp only [addMember, hk, fieldOf?_of_field? hkey, fieldOf?_of_field? hvalue]
    exact bind_eq_ok.mpr ⟨name, hname, bind_eq_ok.mpr ⟨v, hv, rfl⟩⟩
  | shorthand hk _ hname _ ihv ih =>
    obtain ⟨hc, hcs⟩ := List.forall_mem_cons.mp hj
    filter_upwards [ihv hc, ih hcs] with n hv h
    refine holds_members_cons (fun p hp ↦ ?_) h
    simp only [addMember, hk]
    exact bind_eq_ok.mpr ⟨_, hv, bind_eq_ok.mpr ⟨_, lift_eq_ok.mpr hname, rfl⟩⟩

end Folding

end MessageExtraction
