import MessageExtraction.Folding.Rules
import MessageExtraction.Proofs.Result

namespace MessageExtraction.Folding

variable {s : Source} {p : Place} {v : Value} {follow : Binding → Place → Outcome}
  {inner : Inner p → Outcome}

theorem lift_eq_ok {α : Type} {x : Except Fault α} {a : α} : lift x = .ok a ↔ x = .ok a :=
  mapError_eq_ok_iff _

theorem map_val_childrenOf (p : Place) : (childrenOf p).map Subtype.val = p.children := by
  simp [childrenOf, Function.comp_def]

theorem map_val_partsOf (p : Place) : (partsOf p).map Subtype.val = p.parts := by
  simp [partsOf, Function.comp_def]

theorem fieldOf?_eq_some {name : String} {q : Inner p} :
    fieldOf? p name = some q ↔ p.field? name = some q.1 := by
  unfold fieldOf?
  split
  · rename_i c hc
    simp [hc, Subtype.ext_iff]
  · rename_i hn
    simp [hn]

def Inner.ofField {q : Place} {name : String} (h : p.field? name = some q) : Inner p :=
  ⟨q, Place.sizeOf_node_lt (Place.mem_children_of_field? h)⟩

theorem sizeOf_node_lt_of_mem_parts {q : Place} (h : q ∈ p.parts) :
    sizeOf q.node < sizeOf p.node :=
  Place.sizeOf_node_lt (Place.mem_children_of_mem_parts h)

def Inner.ofPart {q : Place} (h : q ∈ p.parts) : Inner p := ⟨q, sizeOf_node_lt_of_mem_parts h⟩

theorem fieldOf?_of_field? {q : Place} {name : String} (h : p.field? name = some q) :
    fieldOf? p name = some (.ofField h) :=
  fieldOf?_eq_some.mpr h

theorem ofOnlyPart_eq_ok :
    ofOnlyPart p inner = .ok v ↔ ∃ q : Inner p, p.parts = [q.1] ∧ inner q = .ok v := by
  rw [ofOnlyPart, ← map_val_partsOf]
  constructor
  · intro h
    split at h
    · rename_i q hq
      exact ⟨q, by rw [hq]; rfl, h⟩
    · cases h
  · rintro ⟨q, hq, h⟩
    obtain ⟨q', hq', heq⟩ := List.map_eq_singleton_iff.mp hq
    rw [hq']
    obtain rfl := Subtype.ext heq
    exact h

/-- A name has a value if it is global and known, or refers to a constant with a value. -/
theorem ofName_eq_ok :
    ofName s follow p = .ok v ↔
      ∃ name, s.textOf p = .ok name ∧
        (s.lookup p name = .ok none ∧ globalConstant? name = some v ∨
          ∃ b value, s.lookup p name = .ok (some b) ∧ b.value? = some value ∧
            s.isConstant b = .ok true ∧ follow b value = .ok v) := by
  simp only [ofName, bind_eq_ok, lift_eq_ok]
  refine exists_congr fun name ↦ and_congr_right fun _ ↦ ?_
  constructor
  · rintro ⟨found, hfound, h⟩
    cases found with
    | none =>
      cases hg : globalConstant? name with
      | none => simp [hg, throw_ne_ok] at h
      | some w =>
        simp only [hg, pure_eq_ok] at h
        exact .inl ⟨hfound, by rw [h]⟩
    | some b =>
      cases hv : b.value? with
      | none => simp [hv, throw_ne_ok] at h
      | some value =>
        simp only [hv, bind_eq_ok, lift_eq_ok] at h
        obtain ⟨constant, hc, h⟩ := h
        cases constant with
        | false => simp [throw_ne_ok] at h
        | true => exact .inr ⟨b, value, hfound, hv, hc, h⟩
  · rintro (⟨hfound, hg⟩ | ⟨b, value, hfound, hv, hc, h⟩)
    · refine ⟨none, hfound, ?_⟩
      simp only [hg]
      rfl
    · refine ⟨some b, hfound, ?_⟩
      simp only [hv, bind_eq_ok, lift_eq_ok]
      exact ⟨true, hc, h⟩

theorem ofField_eq_ok {name : String} :
    ofField p inner name = .ok v ↔ ∃ q : Inner p, p.field? name = some q.1 ∧ inner q = .ok v := by
  simp only [← fieldOf?_eq_some]
  unfold ofField
  split <;> simp_all

/-- Whether the value of the left operand settles that of the operation; none for the operators that
need both operands. -/
def leftSettles? (operator : String) (v : Value) : Option Bool :=
  match operator with
  | "&&" => some (!v.isTruthy)
  | "||" => some v.isTruthy
  | "??" => some (!isNothing v)
  | _ => none

/-- A binary expression has the value of its left operand, that of its right one, or what the operator
makes of both. -/
theorem ofBinary_eq_ok :
    ofBinary p inner = .ok v ↔
      ∃ operator l r : Inner p, p.field? "operator" = some operator.1 ∧
        p.field? "left" = some l.1 ∧ p.field? "right" = some r.1 ∧ ∃ u, inner l = .ok u ∧
        (leftSettles? operator.1.kind u = some true ∧ u = v ∨
          leftSettles? operator.1.kind u = some false ∧ inner r = .ok v ∨
          leftSettles? operator.1.kind u = none ∧
            ∃ w, inner r = .ok w ∧ operate operator.1.kind u w = .ok v) := by
  simp only [← fieldOf?_eq_some]
  unfold ofBinary
  split
  · rename_i operator l r ho hl hr
    simp only [ho, hl, hr, Option.some.injEq, exists_and_left, exists_eq_left', bind_eq_ok]
    refine exists_congr fun u ↦ and_congr_right fun _ ↦ ?_
    split
    · rename_i hop
      simp only [leftSettles?, hop]
      cases u.isTruthy <;> simp [pure_eq_ok]
    · rename_i hop
      simp only [leftSettles?, hop]
      cases u.isTruthy <;> simp [pure_eq_ok]
    · rename_i hop
      simp only [leftSettles?, hop]
      cases isNothing u <;> simp [pure_eq_ok]
    · rename_i h₁ h₂ h₃
      have hs : leftSettles? operator.1.kind u = none := by
        unfold leftSettles?
        split <;> simp_all
      simp [hs, bind_eq_ok]
  · rename_i hnone
    constructor
    · intro h
      cases h
    · rintro ⟨operator, l, r, ho, hl, hr, -⟩
      exact absurd hr (hnone operator l r ho hl)

/-- The second computation succeeds where the first does, with the same result. -/
def Extends {α : Type} (x y : Except Stop α) : Prop := ∀ a, x = .ok a → y = .ok a

/-- The second computation ends as the first does, unless the first finds nothing constant. -/
def Settles {α : Type} (x y : Except Stop α) : Prop := x ≠ .error .notConstant → y = x

theorem Settles.refl {α : Type} (x : Except Stop α) : Settles x x := fun _ ↦ rfl

theorem Settles.of_notConstant {α : Type} (y : Except Stop α) : Settles (.error .notConstant) y :=
  fun h ↦ absurd rfl h

theorem Settles.extends {α : Type} {x y : Except Stop α} (h : Settles x y) : Extends x y := by
  intro a ha
  rw [h (by rw [ha]; simp), ha]

theorem Settles.trans {α : Type} {x y z : Except Stop α} (h : Settles x y) (h' : Settles y z) :
    Settles x z := by
  intro hx
  have hy := h hx
  rw [h' (hy ▸ hx), hy]

theorem Settles.bind {α β : Type} {x x' : Except Stop α} {f f' : α → Except Stop β}
    (hx : Settles x x') (hf : ∀ a, Settles (f a) (f' a)) : Settles (x >>= f) (x' >>= f') := by
  intro h
  have hx' : x' = x := by
    apply hx
    rintro rfl
    exact h rfl
  rw [hx']
  cases x with
  | error e => rfl
  | ok a => exact hf a h

theorem Settles.mapM {α β : Type} {f f' : α → Except Stop β} (hf : ∀ a, Settles (f a) (f' a))
    (l : List α) : Settles (l.mapM f) (l.mapM f') := by
  induction l with
  | nil => exact .refl _
  | cons a l ih =>
    rw [List.mapM_cons, List.mapM_cons]
    exact .bind (hf a) fun _ ↦ .bind ih fun _ ↦ .refl _

theorem Settles.foldlM {α β : Type} {f f' : β → α → Except Stop β}
    (hf : ∀ b a, Settles (f b a) (f' b a)) (l : List α) (b : β) :
    Settles (l.foldlM f b) (l.foldlM f' b) := by
  induction l generalizing b with
  | nil => exact .refl _
  | cons a l ih =>
    rw [List.foldlM_cons, List.foldlM_cons]
    exact .bind (hf b a) ih

section Settling

variable {inner' : Inner p → Outcome} {follow' : Binding → Place → Outcome}

theorem settles_ofName (hfollow : ∀ b q, Settles (follow b q) (follow' b q)) (p : Place) :
    Settles (ofName s follow p) (ofName s follow' p) := by
  unfold ofName
  refine .bind (.refl _) fun name ↦ .bind (.refl _) fun found ↦ ?_
  split
  · exact .refl _
  · split
    · exact .refl _
    · refine .bind (.refl _) fun constant ↦ ?_
      split
      · exact hfollow _ _
      · exact .refl _

theorem settles_ofOnlyPart (hinner : ∀ q, Settles (inner q) (inner' q)) :
    Settles (ofOnlyPart p inner) (ofOnlyPart p inner') := by
  unfold ofOnlyPart
  split
  · exact hinner _
  · exact .refl _

theorem settles_templatePiece (hinner : ∀ q, Settles (inner q) (inner' q)) (c : Inner p) :
    Settles (templatePiece s p inner c) (templatePiece s p inner' c) := by
  unfold templatePiece
  split
  · exact .refl _
  · exact .refl _
  · exact .bind (settles_ofOnlyPart fun q ↦ hinner (c.trans q)) fun _ ↦ .refl _
  · exact .refl _

theorem settles_ofBinary (hinner : ∀ q, Settles (inner q) (inner' q)) :
    Settles (ofBinary p inner) (ofBinary p inner') := by
  unfold ofBinary
  split
  · rename_i right _ _ _
    refine .bind (hinner _) fun v ↦ ?_
    split
    · split
      · exact hinner right
      · exact .refl _
    · split
      · exact .refl _
      · exact hinner right
    · split
      · exact hinner right
      · exact .refl _
    · exact .bind (hinner right) fun _ ↦ .refl _
  · exact .refl _

theorem settles_ofUnary (hinner : ∀ q, Settles (inner q) (inner' q)) :
    Settles (ofUnary p inner) (ofUnary p inner') := by
  unfold ofUnary
  split
  · split
    · exact .refl _
    · exact .bind (hinner _) fun _ ↦ .refl _
  · exact .refl _

theorem settles_ofField (hinner : ∀ q, Settles (inner q) (inner' q)) (name : String) :
    Settles (ofField p inner name) (ofField p inner' name) := by
  unfold ofField
  split
  · exact hinner _
  · exact .refl _

theorem settles_addMember {byName byName' : Place → Outcome}
    (hinner : ∀ q, Settles (inner q) (inner' q)) (hname : ∀ q, Settles (byName q) (byName' q))
    (members : List (Text × Value)) (c : Inner p) :
    Settles (addMember s p inner byName members c) (addMember s p inner' byName' members c) := by
  unfold addMember
  split
  · split
    · exact .bind (.refl _) fun _ ↦ .bind (hinner _) fun _ ↦ .refl _
    · exact .refl _
  · exact .bind (hname _) fun _ ↦ .refl _
  · exact .refl _

theorem settles_rule (hinner : ∀ q, Settles (inner q) (inner' q))
    (hfollow : ∀ b q, Settles (follow b q) (follow' b q)) :
    Settles (rule s p inner follow) (rule s p inner' follow') := by
  unfold rule
  split
  · split
    · exact hinner _
    · exact .refl _
  split
  all_goals try exact .refl _
  · exact .bind (.mapM (settles_templatePiece hinner) _) fun _ ↦ .refl _
  · exact settles_ofName hfollow p
  · exact settles_ofOnlyPart hinner
  · exact settles_ofBinary hinner
  · exact settles_ofUnary hinner
  · exact .bind (settles_ofField hinner _) fun _ ↦ settles_ofField hinner _
  · exact .bind (.foldlM (settles_addMember hinner (settles_ofName hfollow)) _ _) fun _ ↦ .refl _
  · refine .bind (.mapM (fun c ↦ ?_) _) fun _ ↦ .refl _
    split
    · exact .refl _
    · exact hinner c

end Settling

end MessageExtraction.Folding
