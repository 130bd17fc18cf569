import Mathlib.Logic.Relation
import MessageExtraction.Proofs.Folding.Exactness
import MessageExtraction.Proofs.Value.Operations

/-!
When computing a value breaks. Working out an expression needs the values of others, in a fixed order and
only as far as those before them have one; it breaks exactly if one that is needed breaks by itself.
-/

namespace MessageExtraction

open Folding

namespace Folding

/-- What has to be worked out: the value of an expression or of a name. -/
inductive Task where
  | value (p : Place)
  | name (p : Place)

/-- Where what has to be worked out stands. -/
def Task.place : Task → Place
  | .value p | .name p => p

/-- Working out the first comes to working out the second. -/
inductive Needs (s : Source) : Task → Task → Prop
  | wrapper {p q : Place} {rest : List Place} :
      p.isWrapper = true → p.parts = q :: rest → Needs s (.value p) (.value q)
  | substitution {p c q : Place} {before after : List Place} {ts : List Text} :
      p.kind = "template_string" → p.children = before ++ c :: after → Derives s (.pieces before ts) →
      c.kind = "template_substitution" → c.parts = [q] → Needs s (.value p) (.value q)
  | identifier {p : Place} : p.kind = "identifier" → Needs s (.value p) (.name p)
  | embedded {p q : Place} :
      p.kind = "jsx_expression" → p.parts = [q] → Needs s (.value p) (.value q)
  | left {p operator l r : Place} :
      p.kind = "binary_expression" → p.field? "operator" = some operator →
      p.field? "left" = some l → p.field? "right" = some r → Needs s (.value p) (.value l)
  | right {p operator l r : Place} {v : Value} :
      p.kind = "binary_expression" → p.field? "operator" = some operator →
      p.field? "left" = some l → p.field? "right" = some r → Derives s (.value l v) →
      leftSettles? operator.kind v ≠ some true → Needs s (.value p) (.value r)
  | argument {p operator argument : Place} :
      p.kind = "unary_expression" → p.field? "operator" = some operator →
      p.field? "argument" = some argument → operator.kind ≠ "void" →
      Needs s (.value p) (.value argument)
  | condition {p condition : Place} :
      p.kind = "ternary_expression" → p.field? "condition" = some condition →
      Needs s (.value p) (.value condition)
  | branch {p condition branch : Place} {v : Value} :
      p.kind = "ternary_expression" → p.field? "condition" = some condition →
      Derives s (.value condition v) →
      p.field? (if v.isTruthy then "consequence" else "alternative") = some branch →
      Needs s (.value p) (.value branch)
  | member {p c key value : Place} {before after : List Place} {members : List (Text × Value)}
      {name : Text} :
      p.kind = "object" → p.parts = before ++ c :: after → Derives s (.members before [] members) →
      c.kind = "pair" → c.field? "key" = some key → c.field? "value" = some value →
      memberName s key = .ok name → Needs s (.value p) (.value value)
  | shorthand {p c : Place} {before after : List Place} {members : List (Text × Value)} :
      p.kind = "object" → p.parts = before ++ c :: after → Derives s (.members before [] members) →
      c.kind = "shorthand_property_identifier" → Needs s (.value p) (.name c)
  | item {p c : Place} {before after : List Place} {vs : List Value} :
      p.kind = "array" → p.parts = before ++ c :: after → Derives s (.items before vs) →
      c.kind ≠ "spread_element" → Needs s (.value p) (.value c)
  | constant {p value : Place} {name : Text} {b : Binding} :
      s.textOf p = .ok name → s.lookup p name = .ok (some b) → b.value? = some value →
      s.isConstant b = .ok true → Needs s (.name p) (.value value)

/-- A piece of a template breaks by itself. -/
inductive PieceBreaks (s : Source) (c : Place) : Fault → Prop
  | text {f : Fault} : c.kind ≠ "\x60" → c.kind ≠ "template_substitution" → s.textOf c = .error f →
      PieceBreaks s c f
  | escape {t : Text} {f : Fault} : c.kind = "escape_sequence" → s.textOf c = .ok t →
      Text.decodeEscape t = .error f → PieceBreaks s c f
  | substitution {q : Place} {v : Value} : c.kind = "template_substitution" → c.parts = [q] →
      Derives s (.value q v) → v.HasLongInteger → PieceBreaks s c (.tooManyDigits none)

/-- Working something out breaks by itself, all that it needs being there. -/
inductive Breaks (s : Source) : Task → Fault → Prop
  | string {p : Place} {f : Fault} :
      p.kind = "string" → s.stringValue p = .error f → Breaks s (.value p) f
  | number {p : Place} {f : Fault} :
      p.kind = "number" → s.numberValue p = .error f → Breaks s (.value p) f
  | piece {p c : Place} {before after : List Place} {ts : List Text} {f : Fault} :
      p.kind = "template_string" → p.children = before ++ c :: after → Derives s (.pieces before ts) →
      PieceBreaks s c f → Breaks s (.value p) f
  | operation {p operator l r : Place} {v w : Value} {f : Fault} :
      p.kind = "binary_expression" → p.field? "operator" = some operator →
      p.field? "left" = some l → p.field? "right" = some r → Derives s (.value l v) →
      leftSettles? operator.kind v = none → Derives s (.value r w) →
      OperationBreaks operator.kind v w f → Breaks s (.value p) f
  | condition {p : Place} :
      p.kind = "ternary_expression" → p.field? "condition" = none → Breaks s (.value p) .missingNode
  | branch {p condition : Place} {v : Value} :
      p.kind = "ternary_expression" → p.field? "condition" = some condition →
      Derives s (.value condition v) →
      p.field? (if v.isTruthy then "consequence" else "alternative") = none →
      Breaks s (.value p) .missingNode
  | key {p c key value : Place} {before after : List Place} {members : List (Text × Value)}
      {f : Fault} :
      p.kind = "object" → p.parts = before ++ c :: after → Derives s (.members before [] members) →
      c.kind = "pair" → c.field? "key" = some key → c.field? "value" = some value →
      memberName s key = .error (.fault f) → Breaks s (.value p) f
  | text {p : Place} {f : Fault} : s.textOf p = .error f → Breaks s (.name p) f
  | lookup {p : Place} {name : Text} {f : Fault} :
      s.textOf p = .ok name → s.lookup p name = .error f → Breaks s (.name p) f
  | constancy {p value : Place} {name : Text} {b : Binding} {f : Fault} :
      s.textOf p = .ok name → s.lookup p name = .ok (some b) → b.value? = some value →
      s.isConstant b = .error f → Breaks s (.name p) f

/-- One of the things that have to be worked out breaks by itself. -/
def Raises (s : Source) (t : Task) (f : Fault) : Prop :=
  ∃ u, Relation.ReflTransGen (Needs s) t u ∧ Breaks s u f

theorem Breaks.raises {s : Source} {t : Task} {f : Fault} (h : Breaks s t f) : Raises s t f :=
  ⟨t, .refl, h⟩

theorem Raises.step {s : Source} {t u : Task} {f : Fault} (hneeds : Needs s t u) (h : Raises s u f) :
    Raises s t f := by
  obtain ⟨w, hw, hbreaks⟩ := h
  exact ⟨w, .head hneeds hw, hbreaks⟩

section Parts

variable {s : Source} {p : Place} {f : Fault} {follow : Binding → Place → Outcome}
  {inner : Inner p → Outcome}

theorem ofOnlyPart_eq_fault_iff :
    ofOnlyPart p inner = .error (.fault f) ↔
      ∃ q : Inner p, p.parts = [q.1] ∧ inner q = .error (.fault f) := by
  rw [ofOnlyPart, ← map_val_partsOf]
  constructor
  · intro h
    split at h
    · rename_i q hq
      exact ⟨q, by rw [hq]; rfl, h⟩
    · cases h
  · rintro ⟨q, hq, h⟩
    obtain ⟨q', hq', heq⟩ := List.map_eq_singleton_iff.mp hq
    rw [hq']
    obtain rfl := Subtype.ext heq
    exact h

/-- A name breaks by itself or with the constant that it refers to. -/
theorem ofName_eq_fault_iff :
    ofName s follow p = .error (.fault f) ↔
      Breaks s (.name p) f ∨ ∃ name b value, s.textOf p = .ok name ∧ s.lookup p name = .ok (some b) ∧
        b.value? = some value ∧ s.isConstant b = .ok true ∧ follow b value = .error (.fault f) := by
  constructor
  · intro h
    obtain h | ⟨name, hname, h⟩ := bind_eq_error.mp h
    · exact .inl (.text (lift_eq_fault_iff.mp h))
    rw [lift_eq_ok] at hname
    obtain h | ⟨found, hfound, h⟩ := bind_eq_error.mp h
    · exact .inl (.lookup hname (lift_eq_fault_iff.mp h))
    rw [lift_eq_ok] at hfound
    cases found with
    | none => cases hg : globalConstant? name <;> simp [hg] at h <;> cases h
    | some b =>
      cases hv : b.value? with
      | none =>
        simp only [hv] at h
        cases h
      | some value =>
        simp only [hv] at h
        obtain h | ⟨constant, hc, h⟩ := bind_eq_error.mp h
        · exact .inl (.constancy hname hfound hv (lift_eq_fault_iff.mp h))
        rw [lift_eq_ok] at hc
        cases constant with
        | false => cases h
        | true => exact .inr ⟨name, b, value, hname, hfound, hv, hc, h⟩
  · rintro (h | ⟨name, b, value, hname, hfound, hv, hc, h⟩)
    · cases h with
      | text h => exact bind_eq_error.mpr (.inl (lift_eq_fault_iff.mpr h))
      | lookup hname h =>
        refine bind_eq_error.mpr (.inr ⟨_, lift_eq_ok.mpr hname, bind_eq_error.mpr (.inl ?_)⟩)
        exact lift_eq_fault_iff.mpr h
      | constancy hname hfound hv h =>
        refine bind_eq_error.mpr (.inr ⟨_, lift_eq_ok.mpr hname, bind_eq_error.mpr (.inr ?_)⟩)
        refine ⟨_, lift_eq_ok.mpr hfound, ?_⟩
        simp only [hv]
        exact bind_eq_error.mpr (.inl (lift_eq_fault_iff.mpr h))
    · refine bind_eq_error.mpr (.inr ⟨_, lift_eq_ok.mpr hname, bind_eq_error.mpr (.inr ?_)⟩)
      refine ⟨_, lift_eq_ok.mpr hfound, ?_⟩
      simp only [hv]
      exact bind_eq_error.mpr (.inr ⟨true, lift_eq_ok.mpr hc, h⟩)

theorem templatePiece_eq_fault_iff {c : Inner p} :
    templatePiece s p inner c = .error (.fault f) ↔
      (c.1.kind ≠ "\x60" ∧ c.1.kind ≠ "template_substitution" ∧ s.textOf c.1 = .error f) ∨
      (c.1.kind = "escape_sequence" ∧ ∃ t, s.textOf c.1 = .ok t ∧ Text.decodeEscape t = .error f) ∨
      c.1.kind = "template_substitution" ∧ ∃ q : Inner c.1, c.1.parts = [q.1] ∧
        (inner (c.trans q) = .error (.fault f) ∨
          ∃ v, inner (c.trans q) = .ok v ∧ v.toText = .error f) := by
  unfold templatePiece
  split
  · rename_i hk
    simp [hk]
  · rename_i hk
    simp [hk, bind_eq_error, lift_eq_fault_iff, lift_eq_ok]
  · rename_i hk
    simp only [hk, bind_eq_error, lift_eq_fault_iff, ofOnlyPart_eq_fault_iff, ofOnlyPart_eq_ok]
    grind
  · rename_i h₁ h₂ h₃
    rw [lift_eq_fault_iff]
    constructor
    · intro h
      exact .inl ⟨h₁, h₃, h⟩
    · rintro (⟨-, -, h⟩ | ⟨hk, -⟩ | ⟨hk, -⟩)
      · exact h
      · exact absurd hk h₂
      · exact absurd hk h₃

/-- A binary expression breaks with its left operand, with its right one if that is needed, or in the
operation. -/
theorem ofBinary_eq_fault_iff :
    ofBinary p inner = .error (.fault f) ↔
      ∃ operator l r : Inner p, p.field? "operator" = some operator.1 ∧
        p.field? "left" = some l.1 ∧ p.field? "right" = some r.1 ∧
        (inner l = .error (.fault f) ∨ ∃ u, inner l = .ok u ∧
          (leftSettles? operator.1.kind u ≠ some true ∧ inner r = .error (.fault f) ∨
            leftSettles? operator.1.kind u = none ∧
              ∃ w, inner r = .ok w ∧ operate operator.1.kind u w = .error (.fault f))) := by
  simp only [← fieldOf?_eq_some]
  unfold ofBinary
  split
  · rename_i operator l r ho hl hr
    simp only [ho, hl, hr, Option.some.injEq, exists_and_left, exists_eq_left', bind_eq_error]
    refine or_congr_right (exists_congr fun u ↦ and_congr_right fun _ ↦ ?_)
    split
    · rename_i hop
      simp only [leftSettles?, hop]
      cases u.isTruthy <;> simp [pure, Except.pure]
    · rename_i hop
      simp only [leftSettles?, hop]
      cases u.isTruthy <;> simp [pure, Except.pure]
    · rename_i hop
      simp only [leftSettles?, hop]
      cases isNothing u <;> simp [pure, Except.pure]
    · rename_i h₁ h₂ h₃
      have hs : leftSettles? operator.1.kind u = none := by
        unfold leftSettles?
        split <;> simp_all
      simp [hs, bind_eq_error]
  · rename_i hnone
    refine iff_of_false (by simp) ?_
    rintro ⟨operator, l, r, ho, hl, hr, -⟩
    exact hnone operator l r ho hl hr

theorem ofField_eq_fault_iff {name : String} :
    ofField p inner name = .error (.fault f) ↔
      p.field? name = none ∧ f = .missingNode ∨
        ∃ q : Inner p, p.field? name = some q.1 ∧ inner q = .error (.fault f) := by
  cases hq : p.field? name with
  | none =>
    have hnone : fieldOf? p name = none := by
      rw [Option.eq_none_iff_forall_ne_some]
      intro q hq'
      rw [fieldOf?_eq_some.mp hq'] at hq
      cases hq
    rw [ofField, hnone]
    simp [eq_comm]
  | some q =>
    rw [ofField, fieldOf?_of_field? hq]
    constructor
    · intro h
      exact .inr ⟨.ofField hq, rfl, h⟩
    · rintro (⟨h, -⟩ | ⟨q', hq', h⟩)
      · cases h
      · obtain rfl : q = q'.1 := Option.some.inj hq'
        exact h

theorem addMember_eq_fault_iff {byName : Place → Outcome} {members : List (Text × Value)} {c : Inner p}
    (hname : ∀ q v, byName q = .ok v → ∃ name, s.textOf q = .ok name) :
    addMember s p inner byName members c = .error (.fault f) ↔
      (c.1.kind = "pair" ∧ ∃ key value : Inner c.1, c.1.field? "key" = some key.1 ∧
        c.1.field? "value" = some value.1 ∧ (memberName s key.1 = .error (.fault f) ∨
          ∃ name, memberName s key.1 = .ok name ∧ inner (c.trans value) = .error (.fault f))) ∨
      c.1.kind = "shorthand_property_identifier" ∧ byName c.1 = .error (.fault f) := by
  simp only [← fieldOf?_eq_some]
  unfold addMember
  split
  · rename_i hk
    split
    · rename_i key value hkey hvalue
      simp [hk, hkey, hvalue, bind_eq_error, pure, Except.pure]
    · rename_i hnone
      refine iff_of_false (by simp) ?_
      rintro (⟨-, key, value, hkey, hvalue, -⟩ | ⟨hk', -⟩)
      · exact hnone key value hkey hvalue
      · simp [hk] at hk'
  · rename_i hk
    simp only [hk, bind_eq_error]
    constructor
    · rintro (h | ⟨v, hv, h⟩)
      · exact .inr ⟨trivial, h⟩
      · obtain ⟨name, ht⟩ := hname _ v hv
        rw [ht] at h
        obtain h | ⟨_, -, h⟩ := h
        · cases h
        · cases h
    · rintro (⟨h, -⟩ | ⟨-, h⟩)
      · simp at h
      · exact .inl h
  · rename_i h₁ h₂
    refine iff_of_false (by simp) ?_
    rintro (⟨hk, -⟩ | ⟨hk, -⟩)
    · exact h₁ hk
    · exact h₂ hk

theorem exists_textOf_of_ofName {v : Value} (h : ofName s follow p = .ok v) :
    ∃ name, s.textOf p = .ok name := by
  obtain ⟨name, hname, -⟩ := ofName_eq_ok.mp h
  exact ⟨name, hname⟩

end Parts

section Soundness

variable {s : Source} {p : Place} {f : Fault} {follow : Binding → Place → Outcome}
  {inner : Inner p → Outcome}

theorem raises_of_ofName (hfollow : ∀ b q f, follow b q = .error (.fault f) → Raises s (.value q) f)
    (h : ofName s follow p = .error (.fault f)) : Raises s (.name p) f := by
  obtain h | ⟨name, b, value, hname, hfound, hv, hc, h⟩ := ofName_eq_fault_iff.mp h
  · exact h.raises
  · exact .step (.constant hname hfound hv hc) (hfollow b value f h)

theorem raises_of_ofTemplate (hk : p.kind = "template_string")
    (hvalue : ∀ q w, inner q = .ok w → Derives s (.value q.1 w))
    (hfault : ∀ q f, inner q = .error (.fault f) → Raises s (.value q.1) f)
    (h : ofTemplate s p inner = .error (.fault f)) : Raises s (.value p) f := by
  obtain h | ⟨_, -, h⟩ := bind_eq_error.mp h
  · obtain ⟨before, c, after, ts, hsplit, hts, h⟩ := mapM_eq_error.mp h
    have hchildren : p.children = before.map Subtype.val ++ c.1 :: after.map Subtype.val := by
      rw [← map_val_childrenOf, hsplit, List.map_append, List.map_cons]
    have hbefore := derives_of_pieces hvalue hts
    obtain ⟨h₁, h₂, h⟩ | ⟨h₁, t, ht, h⟩ | ⟨h₁, q, hq, h | ⟨v, hv, h⟩⟩ :=
      templatePiece_eq_fault_iff.mp h
    · exact (Breaks.piece hk hchildren hbefore (.text h₁ h₂ h)).raises
    · exact (Breaks.piece hk hchildren hbefore (.escape h₁ ht h)).raises
    · exact .step (.substitution hk hchildren hbefore h₁ hq) (hfault _ f h)
    · obtain ⟨rfl, hlong⟩ := (Value.toText_eq_error_iff v).mp h
      exact (Breaks.piece hk hchildren hbefore (.substitution h₁ hq (hvalue _ v hv) hlong)).raises
  · cases h

theorem raises_of_ofBinary (hk : p.kind = "binary_expression")
    (hvalue : ∀ q w, inner q = .ok w → Derives s (.value q.1 w))
    (hfault : ∀ q f, inner q = .error (.fault f) → Raises s (.value q.1) f)
    (h : ofBinary p inner = .error (.fault f)) : Raises s (.value p) f := by
  obtain ⟨operator, l, r, ho, hl, hr, h | ⟨u, hu, ⟨hs, h⟩ | ⟨hs, w, hw, h⟩⟩⟩ :=
    ofBinary_eq_fault_iff.mp h
  · exact .step (.left hk ho hl hr) (hfault l f h)
  · exact .step (.right hk ho hl hr (hvalue l u hu) hs) (hfault r f h)
  · have hbreaks := operate_eq_fault_iff.mp h
    exact (Breaks.operation hk ho hl hr (hvalue l u hu) hs (hvalue r w hw) hbreaks).raises

theorem raises_of_ofUnary (hk : p.kind = "unary_expression")
    (hfault : ∀ q f, inner q = .error (.fault f) → Raises s (.value q.1) f)
    (h : ofUnary p inner = .error (.fault f)) : Raises s (.value p) f := by
  unfold ofUnary at h
  split at h
  · rename_i operator argument ho ha
    rw [fieldOf?_eq_some] at ho ha
    split at h
    · cases h
    · rename_i hop
      obtain h | ⟨v, -, h⟩ := bind_eq_error.mp h
      · exact .step (.argument hk ho ha hop) (hfault argument f h)
      · exact absurd h (operateAlone_ne_fault _ _ f)
  · cases h

theorem raises_of_ofTernary (hk : p.kind = "ternary_expression")
    (hvalue : ∀ q w, inner q = .ok w → Derives s (.value q.1 w))
    (hfault : ∀ q f, inner q = .error (.fault f) → Raises s (.value q.1) f)
    (h : ofTernary p inner = .error (.fault f)) : Raises s (.value p) f := by
  obtain h | ⟨v, hv, h⟩ := bind_eq_error.mp h
  · obtain ⟨hnone, rfl⟩ | ⟨q, hq, h⟩ := ofField_eq_fault_iff.mp h
    · exact (Breaks.condition hk hnone).raises
    · exact .step (.condition hk hq) (hfault q f h)
  · obtain ⟨condition, hcondition, hv⟩ := ofField_eq_ok.mp hv
    have hv := hvalue condition v hv
    obtain ⟨hnone, rfl⟩ | ⟨q, hq, h⟩ := ofField_eq_fault_iff.mp h
    · exact (Breaks.branch hk hcondition hv hnone).raises
    · exact .step (.branch hk hcondition hv hq) (hfault q f h)

theorem raises_of_ofObject (hk : p.kind = "object")
    (hvalue : ∀ q w, inner q = .ok w → Derives s (.value q.1 w))
    (hfault : ∀ q f, inner q = .error (.fault f) → Raises s (.value q.1) f)
    (hfollow : ∀ b q w, follow b q = .ok w → Derives s (.value q w))
    (hfollow' : ∀ b q f, follow b q = .error (.fault f) → Raises s (.value q) f)
    (h : ofObject s p inner (ofName s follow) = .error (.fault f)) : Raises s (.value p) f := by
  obtain h | ⟨_, -, h⟩ := bind_eq_error.mp h
  · obtain ⟨before, c, after, members, hsplit, hmembers, h⟩ := foldlM_eq_error.mp h
    have hparts : p.parts = before.map Subtype.val ++ c.1 :: after.map Subtype.val := by
      rw [← map_val_partsOf, hsplit, List.map_append, List.map_cons]
    have hbefore := derives_of_members hvalue (fun q w ↦ derives_of_ofName hfollow) hmembers
    obtain ⟨hc, key, value, hkey, hval, h | ⟨name, hname, h⟩⟩ | ⟨hc, h⟩ :=
      (addMember_eq_fault_iff fun q v ↦ exists_textOf_of_ofName).mp h
    · exact (Breaks.key hk hparts hbefore hc hkey hval h).raises
    · exact .step (.member hk hparts hbefore hc hkey hval hname) (hfault _ f h)
    · exact .step (.shorthand hk hparts hbefore hc) (raises_of_ofName hfollow' h)
  · cases h

theorem raises_of_ofArray (hk : p.kind = "array")
    (hvalue : ∀ q w, inner q = .ok w → Derives s (.value q.1 w))
    (hfault : ∀ q f, inner q = .error (.fault f) → Raises s (.value q.1) f)
    (h : ofArray p inner = .error (.fault f)) : Raises s (.value p) f := by
  obtain h | ⟨_, -, h⟩ := bind_eq_error.mp h
  · obtain ⟨before, c, after, vs, hsplit, hvs, h⟩ := mapM_eq_error.mp h
    have hparts : p.parts = before.map Subtype.val ++ c.1 :: after.map Subtype.val := by
      rw [← map_val_partsOf, hsplit, List.map_append, List.map_cons]
    split at h
    · cases h
    · rename_i hc
      exact .step (.item hk hparts (derives_of_items hvalue hvs) hc) (hfault c f h)
  · cases h

/-- What breaks in a rule is needed, if what breaks in its parts and constants is. -/
theorem raises_of_rule (hvalue : ∀ q w, inner q = .ok w → Derives s (.value q.1 w))
    (hfault : ∀ q f, inner q = .error (.fault f) → Raises s (.value q.1) f)
    (hfollow : ∀ b q w, follow b q = .ok w → Derives s (.value q w))
    (hfollow' : ∀ b q f, follow b q = .error (.fault f) → Raises s (.value q) f)
    (h : rule s p inner follow = .error (.fault f)) : Raises s (.value p) f := by
  unfold rule at h
  split at h
  · rename_i hw
    split at h
    · rename_i q rest hq
      have hparts : p.parts = q.1 :: rest.map Subtype.val := by
        rw [← map_val_partsOf, hq, List.map_cons]
      exact .step (.wrapper hw hparts) (hfault q f h)
    · cases h
  split at h <;> rename_i hk
  · obtain h | ⟨_, -, h⟩ := bind_eq_error.mp h
    · exact (Breaks.string hk (lift_eq_fault_iff.mp h)).raises
    · cases h
  · exact raises_of_ofTemplate hk hvalue hfault h
  · obtain h | ⟨_, -, h⟩ := bind_eq_error.mp h
    · exact (Breaks.number hk (lift_eq_fault_iff.mp h)).raises
    · cases h
  · cases h
  · cases h
  · cases h
  · cases h
  · exact .step (.identifier hk) (raises_of_ofName hfollow' h)
  · obtain ⟨q, hq, h⟩ := ofOnlyPart_eq_fault_iff.mp h
    exact .step (.embedded hk hq) (hfault q f h)
  · exact raises_of_ofBinary hk hvalue hfault h
  · exact raises_of_ofUnary hk hfault h
  · exact raises_of_ofTernary hk hvalue hfault h
  · exact raises_of_ofObject hk hvalue hfault hfollow hfollow' h
  · exact raises_of_ofArray hk hvalue hfault h
  · cases h

end Soundness

section Completeness

open Filter Judgement

/-- What has to be worked out stands in a source. -/
def Task.IsIn (s : Source) (t : Task) : Prop := t.place ∈ s.places

/-- Working it out breaks, given what becomes of constants. -/
def Task.Fails (s : Source) (follow : Binding → Place → Outcome) (f : Fault) : Task → Prop
  | .value p => s.foldFrom follow p = .error (.fault f)
  | .name p => ofName s follow p = .error (.fault f)

variable {s : Source} {p : Place} {f : Fault} {follow : Binding → Place → Outcome}

theorem exists_split {l : List (Inner p)} {before after : List Place} {c : Place}
    (h : l.map Subtype.val = before ++ c :: after) :
    ∃ (l₁ : List (Inner p)) (hc : sizeOf c.node < sizeOf p.node) (l₂ : List (Inner p)),
      l = l₁ ++ ⟨c, hc⟩ :: l₂ ∧ l₁.map Subtype.val = before := by
  obtain ⟨l₁, l₂, rfl, hl₁, hl₂⟩ := List.map_eq_append_iff.mp h
  obtain ⟨⟨c, hc⟩, l₂, rfl, rfl, -⟩ := List.map_eq_cons_iff.mp hl₂
  exact ⟨l₁, hc, l₂, rfl, hl₁⟩

theorem foldFrom_template_of_piece {c : Place} {before after : List Place} {ts : List Text}
    (hk : p.kind = "template_string") (hchildren : p.children = before ++ c :: after)
    (hbefore : Holds s follow (.pieces before ts))
    (hc : ∀ hc : sizeOf c.node < sizeOf p.node,
      templatePiece s p (fun q ↦ s.foldFrom follow q.1) ⟨c, hc⟩ = .error (.fault f)) :
    s.foldFrom follow p = .error (.fault f) := by
  rw [Source.foldFrom, rule, if_neg (not_isWrapper_of_kind hk (by decide))]
  simp only [hk]
  obtain ⟨l₁, hlt, l₂, hsplit, hl₁⟩ := exists_split ((map_val_childrenOf p).trans hchildren)
  refine bind_eq_error.mpr (.inl (mapM_eq_error.mpr ?_))
  exact ⟨l₁, _, l₂, ts, hsplit, hbefore p l₁ hl₁, hc hlt⟩

theorem foldFrom_object_of_member {c : Place} {before after : List Place}
    {members : List (Text × Value)} (hk : p.kind = "object") (hparts : p.parts = before ++ c :: after)
    (hbefore : Holds s follow (.members before [] members))
    (hc : ∀ hc : sizeOf c.node < sizeOf p.node, addMember s p (fun q ↦ s.foldFrom follow q.1)
      (ofName s follow) members ⟨c, hc⟩ = .error (.fault f)) :
    s.foldFrom follow p = .error (.fault f) := by
  rw [Source.foldFrom, rule, if_neg (not_isWrapper_of_kind hk (by decide))]
  simp only [hk]
  obtain ⟨l₁, hlt, l₂, hsplit, hl₁⟩ := exists_split ((map_val_partsOf p).trans hparts)
  refine bind_eq_error.mpr (.inl (foldlM_eq_error.mpr ?_))
  exact ⟨l₁, _, l₂, members, hsplit, hbefore p l₁ hl₁, hc hlt⟩

theorem foldFrom_array_of_item {c : Place} {before after : List Place} {vs : List Value}
    (hk : p.kind = "array") (hparts : p.parts = before ++ c :: after)
    (hbefore : Holds s follow (.items before vs)) (hc : c.kind ≠ "spread_element")
    (h : s.foldFrom follow c = .error (.fault f)) : s.foldFrom follow p = .error (.fault f) := by
  rw [Source.foldFrom, rule, if_neg (not_isWrapper_of_kind hk (by decide))]
  simp only [hk]
  obtain ⟨l₁, hlt, l₂, hsplit, hl₁⟩ := exists_split ((map_val_partsOf p).trans hparts)
  refine bind_eq_error.mpr (.inl (mapM_eq_error.mpr ?_))
  refine ⟨l₁, _, l₂, vs, hsplit, hbefore p l₁ hl₁, ?_⟩
  rw [if_neg hc]
  exact h

theorem foldFrom_binary_of_fault {operator l r : Place} (hk : p.kind = "binary_expression")
    (ho : p.field? "operator" = some operator) (hl : p.field? "left" = some l)
    (hr : p.field? "right" = some r)
    (h : s.foldFrom follow l = .error (.fault f) ∨ ∃ u, s.foldFrom follow l = .ok u ∧
      (leftSettles? operator.kind u ≠ some true ∧ s.foldFrom follow r = .error (.fault f) ∨
        leftSettles? operator.kind u = none ∧ ∃ w, s.foldFrom follow r = .ok w ∧
          operate operator.kind u w = .error (.fault f))) :
    s.foldFrom follow p = .error (.fault f) := by
  rw [Source.foldFrom, rule, if_neg (not_isWrapper_of_kind hk (by decide))]
  simp only [hk]
  exact ofBinary_eq_fault_iff.mpr ⟨.ofField ho, .ofField hl, .ofField hr, ho, hl, hr, h⟩

theorem foldFrom_ternary_of_fault (hk : p.kind = "ternary_expression")
    (h : ofField p (fun q ↦ s.foldFrom follow q.1) "condition" = .error (.fault f) ∨
      ∃ v, ofField p (fun q ↦ s.foldFrom follow q.1) "condition" = .ok v ∧
        ofField p (fun q ↦ s.foldFrom follow q.1) (if v.isTruthy then "consequence" else "alternative") =
          .error (.fault f)) : s.foldFrom follow p = .error (.fault f) := by
  rw [Source.foldFrom, rule, if_neg (not_isWrapper_of_kind hk (by decide))]
  simp only [hk]
  exact bind_eq_error.mpr h

/-- What breaks by itself breaks once constants are followed deep enough. -/
theorem eventually_fails_of_breaks {t : Task} (h : Breaks s t f) (ht : t.IsIn s) :
    ∀ᶠ n in atTop, t.Fails s (s.followTo n) f := by
  cases h with
  | string hk h =>
    refine .of_forall fun n ↦ ?_
    rw [Task.Fails, Source.foldFrom, rule, if_neg (not_isWrapper_of_kind hk (by decide))]
    simp only [hk]
    exact bind_eq_error.mpr (.inl (lift_eq_fault_iff.mpr h))
  | number hk h =>
    refine .of_forall fun n ↦ ?_
    rw [Task.Fails, Source.foldFrom, rule, if_neg (not_isWrapper_of_kind hk (by decide))]
    simp only [hk]
    exact bind_eq_error.mpr (.inl (lift_eq_fault_iff.mpr h))
  | @piece p c before after ts f hk hchildren hbefore hpiece =>
    have hin : ∀ q ∈ before ++ c :: after, q ∈ s.places := fun q hq ↦
      Source.mem_places_of_mem_children ht (hchildren ▸ hq)
    have hpieces := eventually_holds hbefore fun q hq ↦ hin q (List.mem_append_left _ hq)
    cases hpiece with
    | text h₁ h₂ h =>
      filter_upwards [hpieces] with n hn
      refine foldFrom_template_of_piece hk hchildren hn fun hc ↦ ?_
      exact templatePiece_eq_fault_iff.mpr (.inl ⟨h₁, h₂, h⟩)
    | escape h₁ hd h =>
      filter_upwards [hpieces] with n hn
      refine foldFrom_template_of_piece hk hchildren hn fun hc ↦ ?_
      exact templatePiece_eq_fault_iff.mpr (.inr (.inl ⟨h₁, _, hd, h⟩))
    | @substitution q v h₁ hq hv hlong =>
      have hmem : q ∈ c.parts := hq ▸ List.mem_singleton_self q
      have hc : c ∈ s.places := hin c (by simp)
      filter_upwards [hpieces, eventually_holds hv (Source.mem_places_of_mem_parts hc hmem)] with n hn hv
      refine foldFrom_template_of_piece hk hchildren hn fun hc ↦ ?_
      refine templatePiece_eq_fault_iff.mpr (.inr (.inr ⟨h₁, .ofPart hmem, hq, .inr ⟨v, hv, ?_⟩⟩))
      exact (Value.toText_eq_error_iff v).mpr ⟨rfl, hlong⟩
  | operation hk ho hl hr hv hs hw h =>
    filter_upwards [eventually_holds hv (Source.mem_places_of_field? ht hl),
      eventually_holds hw (Source.mem_places_of_field? ht hr)] with n hv hw
    refine foldFrom_binary_of_fault hk ho hl hr (.inr ⟨_, hv, .inr ⟨hs, _, hw, ?_⟩⟩)
    exact operate_eq_fault_iff.mpr h
  | condition hk hnone =>
    refine .of_forall fun n ↦ foldFrom_ternary_of_fault hk (.inl ?_)
    exact ofField_eq_fault_iff.mpr (.inl ⟨hnone, rfl⟩)
  | branch hk hcondition hv hnone =>
    filter_upwards [eventually_holds hv (Source.mem_places_of_field? ht hcondition)] with n hv
    refine foldFrom_ternary_of_fault hk (.inr ⟨_, ofField_eq_ok.mpr ⟨.ofField hcondition, hcondition, hv⟩, ?_⟩)
    exact ofField_eq_fault_iff.mpr (.inl ⟨hnone, rfl⟩)
  | @key p c key value before after members f hk hparts hbefore hc hkey hvalue h =>
    have hin : ∀ q ∈ before, q ∈ s.places := fun q hq ↦
      Source.mem_places_of_mem_parts ht (hparts ▸ List.mem_append_left _ hq)
    filter_upwards [eventually_holds hbefore hin] with n hn
    refine foldFrom_object_of_member hk hparts hn fun hlt ↦ ?_
    refine (addMember_eq_fault_iff fun q v ↦ exists_textOf_of_ofName).mpr (.inl ⟨hc, ?_⟩)
    exact ⟨.ofField hkey, .ofField hvalue, hkey, hvalue, .inl h⟩
  | text h => exact .of_forall fun n ↦ ofName_eq_fault_iff.mpr (.inl (.text h))
  | lookup hname h => exact .of_forall fun n ↦ ofName_eq_fault_iff.mpr (.inl (.lookup hname h))
  | constancy hname hfound hv h =>
    exact .of_forall fun n ↦ ofName_eq_fault_iff.mpr (.inl (.constancy hname hfound hv h))

/-- What is needed stands within what needs it, or is the initial value of a constant. -/
theorem place_of_needs {t u : Task} (ht : t.IsIn s) (h : Needs s t u) :
    u.place ∈ t.place.subtree ∨ ∃ b, s.Declares b u.place := by
  cases h with
  | constant _ hfound hv => exact .inr ⟨_, Source.declares_of_lookup ht hfound hv⟩
  | identifier => exact .inl (Place.self_mem_subtree _)
  | wrapper _ hq => exact .inl (Place.mem_subtree_of_mem_parts (hq ▸ List.mem_cons_self))
  | embedded _ hq => exact .inl (Place.mem_subtree_of_mem_parts (hq ▸ List.mem_cons_self))
  | substitution _ hchildren _ _ hq =>
    refine .inl (Place.mem_subtree_trans (Place.mem_subtree_of_mem_children ?_)
      (Place.mem_subtree_of_mem_parts (hq ▸ List.mem_cons_self)))
    exact hchildren ▸ List.mem_append_right _ List.mem_cons_self
  | left _ _ hq _ | right _ _ _ hq | argument _ _ hq | condition _ hq | branch _ _ _ hq =>
    exact .inl (Place.mem_subtree_of_field? hq)
  | member _ hparts _ _ _ hvalue =>
    refine .inl (Place.mem_subtree_trans (Place.mem_subtree_of_mem_parts ?_)
      (Place.mem_subtree_of_field? hvalue))
    exact hparts ▸ List.mem_append_right _ List.mem_cons_self
  | shorthand _ hparts | item _ hparts =>
    exact .inl (Place.mem_subtree_of_mem_parts (hparts ▸ List.mem_append_right _ List.mem_cons_self))

theorem isIn_of_needs {t u : Task} (h : Needs s t u) (ht : t.IsIn s) : u.IsIn s := by
  obtain hu | ⟨b, hb⟩ := place_of_needs ht h
  · exact Place.mem_subtree_trans ht hu
  · exact hb.value_mem

/-- Where something that is needed breaks, so does what needs it. -/
theorem eventually_fails_of_needs {t u : Task} (h : Needs s t u) (ht : t.IsIn s)
    (hu : ∀ᶠ n in atTop, u.Fails s (s.followTo n) f) : ∀ᶠ n in atTop, t.Fails s (s.followTo n) f := by
  cases h with
  | wrapper hw hq =>
    filter_upwards [hu] with n h
    rw [← map_val_partsOf] at hq
    obtain ⟨q', l, hl, rfl, -⟩ := List.map_eq_cons_iff.mp hq
    rw [Task.Fails, Source.foldFrom, rule, if_pos hw, hl]
    exact h
  | @substitution p c q before after ts hk hchildren hbefore hc hq =>
    have hin : ∀ q ∈ before, q ∈ s.places := fun q hq ↦
      Source.mem_places_of_mem_children ht (hchildren ▸ List.mem_append_left _ hq)
    filter_upwards [hu, eventually_holds hbefore hin] with n h hn
    refine foldFrom_template_of_piece hk hchildren hn fun hlt ↦ ?_
    have hmem : q ∈ c.parts := hq ▸ List.mem_singleton_self q
    exact templatePiece_eq_fault_iff.mpr (.inr (.inr ⟨hc, .ofPart hmem, hq, .inl h⟩))
  | identifier hk =>
    filter_upwards [hu] with n h
    rw [Task.Fails, Source.foldFrom, rule, if_neg (not_isWrapper_of_kind hk (by decide))]
    simp only [hk]
    exact h
  | @embedded p q hk hq =>
    filter_upwards [hu] with n h
    rw [Task.Fails, Source.foldFrom, rule, if_neg (not_isWrapper_of_kind hk (by decide))]
    simp only [hk]
    exact ofOnlyPart_eq_fault_iff.mpr ⟨.ofPart (hq ▸ List.mem_singleton_self q), hq, h⟩
  | left hk ho hl hr =>
    filter_upwards [hu] with n h
    exact foldFrom_binary_of_fault hk ho hl hr (.inl h)
  | right hk ho hl hr hv hs =>
    filter_upwards [hu, eventually_holds hv (Source.mem_places_of_field? ht hl)] with n h hv
    exact foldFrom_binary_of_fault hk ho hl hr (.inr ⟨_, hv, .inl ⟨hs, h⟩⟩)
  | argument hk ho ha hop =>
    filter_upwards [hu] with n h
    rw [Task.Fails, Source.foldFrom, rule, if_neg (not_isWrapper_of_kind hk (by decide))]
    simp only [hk, ofUnary, fieldOf?_of_field? ho, fieldOf?_of_field? ha, Inner.ofField, hop, if_false]
    exact bind_eq_error.mpr (.inl h)
  | condition hk hc =>
    filter_upwards [hu] with n h
    refine foldFrom_ternary_of_fault hk (.inl ?_)
    exact ofField_eq_fault_iff.mpr (.inr ⟨.ofField hc, hc, h⟩)
  | branch hk hc hv hb =>
    filter_upwards [hu, eventually_holds hv (Source.mem_places_of_field? ht hc)] with n h hv
    refine foldFrom_ternary_of_fault hk (.inr ⟨_, ofField_eq_ok.mpr ⟨.ofField hc, hc, hv⟩, ?_⟩)
    exact ofField_eq_fault_iff.mpr (.inr ⟨.ofField hb, hb, h⟩)
  | @member p c key value before after members name hk hparts hbefore hc hkey hvalue hname =>
    have hin : ∀ q ∈ before, q ∈ s.places := fun q hq ↦
      Source.mem_places_of_mem_parts ht (hparts ▸ List.mem_append_left _ hq)
    filter_upwards [hu, eventually_holds hbefore hin] with n h hn
    refine foldFrom_object_of_member hk hparts hn fun hlt ↦ ?_
    refine (addMember_eq_fault_iff fun q v ↦ exists_textOf_of_ofName).mpr (.inl ⟨hc, ?_⟩)
    exact ⟨.ofField hkey, .ofField hvalue, hkey, hvalue, .inr ⟨name, hname, h⟩⟩
  | @shorthand p c before after members hk hparts hbefore hc =>
    have hin : ∀ q ∈ before, q ∈ s.places := fun q hq ↦
      Source.mem_places_of_mem_parts ht (hparts ▸ List.mem_append_left _ hq)
    filter_upwards [hu, eventually_holds hbefore hin] with n h hn
    refine foldFrom_object_of_member hk hparts hn fun hlt ↦ ?_
    exact (addMember_eq_fault_iff fun q v ↦ exists_textOf_of_ofName).mpr (.inr ⟨hc, h⟩)
  | @item p c before after vs hk hparts hbefore hc =>
    have hin : ∀ q ∈ before, q ∈ s.places := fun q hq ↦
      Source.mem_places_of_mem_parts ht (hparts ▸ List.mem_append_left _ hq)
    filter_upwards [hu, eventually_holds hbefore hin] with n h hn
    exact foldFrom_array_of_item hk hparts hn hc h
  | @constant p value name b hname hfound hv hc =>
    -- As with values, the constant is one further away than the name.
    have hd : s.Declares b value := Source.declares_of_lookup ht hfound hv
    obtain ⟨n, hn⟩ := eventually_atTop.mp hu
    refine eventually_atTop.mpr ⟨n + 1, fun m hm ↦ ?_⟩
    obtain ⟨m, rfl⟩ : ∃ k, m = k + 1 := ⟨m - 1, by omega⟩
    refine ofName_eq_fault_iff.mpr (.inr ⟨name, b, value, hname, hfound, hv, hc, ?_⟩)
    rw [Source.followTo, if_pos hd]
    exact hn m (by omega)

theorem eventually_fails {t : Task} (h : Raises s t f) (ht : t.IsIn s) :
    ∀ᶠ n in atTop, t.Fails s (s.followTo n) f := by
  obtain ⟨u, hneeds, hbreaks⟩ := h
  induction hneeds using Relation.ReflTransGen.head_induction_on with
  | refl => exact eventually_fails_of_breaks hbreaks ht
  | head hstep _ ih => exact eventually_fails_of_needs hstep ht (ih (isIn_of_needs hstep ht))

end Completeness

end Folding

namespace Source

variable {s : Source}

theorem raises_of_foldWith {pending : List (List Nat)} {p : Place} {f : Fault}
    (h : s.foldWith pending p = .error (.fault f)) : Raises s (.value p) f := by
  rw [foldWith] at h
  refine raises_of_rule (fun q w hq ↦ derives_of_foldWith hq) (fun q f hq ↦ ?_) (fun b value w hb ↦ ?_)
    (fun b value f hb ↦ ?_) h
  · have := q.2
    exact raises_of_foldWith hq
  · split at hb
    · exact derives_of_foldWith hb
    · cases hb
  · split at hb
    · rename_i hpending
      have := List.length_erase_of_mem hpending
      have := List.length_pos_of_mem hpending
      exact raises_of_foldWith hb
    · cases hb
termination_by (pending.length, sizeOf p.node)

/-- A fold ends as it does when constants are followed so many deep, if they lead to an end. -/
theorem settles_fold (n : Nat) (p : Place) : Settles (s.foldFrom (s.followTo n) p) (s.fold p) := by
  refine settles_foldWith (fun b value hd hnot ↦ ?_) p
  exact absurd (List.mem_map_of_mem hd.place_mem) hnot

/-- What can be derived is what a fold gives. -/
theorem fold_of_derives {p : Place} {v : Value} (hp : p ∈ s.places) (h : Derives s (.value p v)) :
    s.fold p = .ok v := by
  obtain ⟨n, hn⟩ := (eventually_holds h hp).exists
  exact (settles_fold n p).extends v hn

/-- A fold breaks exactly if one of the things that it needs breaks by itself. -/
theorem fold_eq_fault_iff_raises {p : Place} (hp : p ∈ s.places) (f : Fault) :
    s.fold p = .error (.fault f) ↔ Raises s (.value p) f := by
  constructor
  · exact raises_of_foldWith
  · intro h
    obtain ⟨n, hn⟩ := (eventually_fails h hp).exists
    have hfails : s.foldFrom (s.followTo n) p = .error (.fault f) := hn
    rw [settles_fold n p (by simp [hfails]), hfails]

end Source

end MessageExtraction
