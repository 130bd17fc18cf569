import MessageExtraction.Proofs.Folding.Rules

namespace MessageExtraction.Folding

/-- What can be derived: the value of an expression or of a name, the texts of the pieces of a
template, the values of the items of an array, or what members add to those before them. -/
inductive Judgement where
  | value (p : Place) (v : Value)
  | name (p : Place) (v : Value)
  | pieces (ps : List Place) (ts : List Text)
  | items (ps : List Place) (vs : List Value)
  | members (ps : List Place) (before after : List (Text × Value))

/-- The rules for the values of expressions. A constant has the value of its initial value, and nothing
keeps a rule from being used for a constant above the use of the same rule for the same constant. -/
inductive Derives (s : Source) : Judgement → Prop
  | wrapper {p q : Place} {rest : List Place} {v : Value} :
      p.isWrapper = true → p.parts = q :: rest → Derives s (.value q v) → Derives s (.value p v)
  | string {p : Place} {t : Text} :
      p.kind = "string" → s.stringValue p = .ok t → Derives s (.value p (.text t))
  | template {p : Place} {ts : List Text} :
      p.kind = "template_string" → Derives s (.pieces p.children ts) →
      Derives s (.value p (.text ts.flatten))
  | number {p : Place} {n : Number.Literal} :
      p.kind = "number" → s.numberValue p = .ok n → Derives s (.value p (.ofLiteral n))
  | yes {p : Place} : p.kind = "true" → Derives s (.value p (.bool true))
  | no {p : Place} : p.kind = "false" → Derives s (.value p (.bool false))
  | null {p : Place} : p.kind = "null" → Derives s (.value p .null)
  | undefined {p : Place} : p.kind = "undefined" → Derives s (.value p .undefined)
  | identifier {p : Place} {v : Value} :
      p.kind = "identifier" → Derives s (.name p v) → Derives s (.value p v)
  | embedded {p q : Place} {v : Value} :
      p.kind = "jsx_expression" → p.parts = [q] → Derives s (.value q v) → Derives s (.value p v)
  | left {p operator l r : Place} {v : Value} :
      p.kind = "binary_expression" → p.field? "operator" = some operator →
      p.field? "left" = some l → p.field? "right" = some r → Derives s (.value l v) →
      leftSettles? operator.kind v = some true → Derives s (.value p v)
  | right {p operator l r : Place} {v w : Value} :
      p.kind = "binary_expression" → p.field? "operator" = some operator →
      p.field? "left" = some l → p.field? "right" = some r → Derives s (.value l v) →
      leftSettles? operator.kind v = some false → Derives s (.value r w) → Derives s (.value p w)
  | binary {p operator l r : Place} {v w u : Value} :
      p.kind = "binary_expression" → p.field? "operator" = some operator →
      p.field? "left" = some l → p.field? "right" = some r → Derives s (.value l v) →
      leftSettles? operator.kind v = none → Derives s (.value r w) →
      operate operator.kind v w = .ok u → Derives s (.value p u)
  | void {p operator argument : Place} :
      p.kind = "unary_expression" → p.field? "operator" = some operator →
      p.field? "argument" = some argument → operator.kind = "void" →
      Derives s (.value p .undefined)
  | unary {p operator argument : Place} {v w : Value} :
      p.kind = "unary_expression" → p.field? "operator" = some operator →
      p.field? "argument" = some argument → operator.kind ≠ "void" →
      Derives s (.value argument v) → operateAlone operator.kind v = .ok w → Derives s (.value p w)
  | ternary {p condition branch : Place} {v w : Value} :
      p.kind = "ternary_expression" → p.field? "condition" = some condition →
      Derives s (.value condition v) →
      p.field? (if v.isTruthy then "consequence" else "alternative") = some branch →
      Derives s (.value branch w) → Derives s (.value p w)
  | object {p : Place} {members : List (Text × Value)} :
      p.kind = "object" → Derives s (.members p.parts [] members) →
      Derives s (.value p (.object members))
  | array {p : Place} {vs : List Value} :
      p.kind = "array" → Derives s (.items p.parts vs) → Derives s (.value p (.list vs))
  | globalName {p : Place} {name : Text} {v : Value} :
      s.textOf p = .ok name → s.lookup p name = .ok none → globalConstant? name = some v →
      Derives s (.name p v)
  | constant {p value : Place} {name : Text} {b : Binding} {v : Value} :
      s.textOf p = .ok name → s.lookup p name = .ok (some b) → b.value? = some value →
      s.isConstant b = .ok true → Derives s (.value value v) → Derives s (.name p v)
  | noPieces : Derives s (.pieces [] [])
  | backquote {c : Place} {cs : List Place} {ts : List Text} :
      c.kind = "\x60" → Derives s (.pieces cs ts) → Derives s (.pieces (c :: cs) ([] :: ts))
  | escape {c : Place} {cs : List Place} {t u : Text} {ts : List Text} :
      c.kind = "escape_sequence" → s.textOf c = .ok t → Text.decodeEscape t = .ok u →
      Derives s (.pieces cs ts) → Derives s (.pieces (c :: cs) (u :: ts))
  | substitution {c q : Place} {cs : List Place} {v : Value} {t : Text} {ts : List Text} :
      c.kind = "template_substitution" → c.parts = [q] → Derives s (.value q v) →
      v.toText = .ok t → Derives s (.pieces cs ts) → Derives s (.pieces (c :: cs) (t :: ts))
  | fragment {c : Place} {cs : List Place} {t : Text} {ts : List Text} :
      c.kind ≠ "\x60" → c.kind ≠ "escape_sequence" → c.kind ≠ "template_substitution" →
      s.textOf c = .ok t → Derives s (.pieces cs ts) → Derives s (.pieces (c :: cs) (t :: ts))
  | noItems : Derives s (.items [] [])
  | item {c : Place} {cs : List Place} {v : Value} {vs : List Value} :
      c.kind ≠ "spread_element" → Derives s (.value c v) → Derives s (.items cs vs) →
      Derives s (.items (c :: cs) (v :: vs))
  | noMembers {members : List (Text × Value)} : Derives s (.members [] members members)
  | pair {c key value : Place} {cs : List Place} {name : Text} {v : Value}
      {before after : List (Text × Value)} :
      c.kind = "pair" → c.field? "key" = some key → c.field? "value" = some value →
      memberName s key = .ok name → Derives s (.value value v) →
      Derives s (.members cs (Value.insertMember name v before) after) →
      Derives s (.members (c :: cs) before after)
  | shorthand {c : Place} {cs : List Place} {name : Text} {v : Value}
      {before after : List (Text × Value)} :
      c.kind = "shorthand_property_identifier" → Derives s (.name c v) → s.textOf c = .ok name →
      Derives s (.members cs (Value.insertMember name v before) after) →
      Derives s (.members (c :: cs) before after)

section Soundness

variable {s : Source} {p : Place} {v : Value} {follow : Binding → Place → Outcome}
  {inner : Inner p → Outcome}

theorem derives_of_ofName (hfollow : ∀ b q w, follow b q = .ok w → Derives s (.value q w))
    (h : ofName s follow p = .ok v) : Derives s (.name p v) := by
  obtain ⟨name, hname, ⟨hb, hg⟩ | ⟨b, value, hb, hv, hc, h⟩⟩ := ofName_eq_ok.mp h
  · exact .globalName hname hb hg
  · exact .constant hname hb hv hc (hfollow b value v h)

theorem derives_of_pieces (hinner : ∀ q w, inner q = .ok w → Derives s (.value q.1 w))
    {l : List (Inner p)} {ts : List Text} (h : l.mapM (templatePiece s p inner) = .ok ts) :
    Derives s (.pieces (l.map Subtype.val) ts) := by
  rw [mapM_eq_ok] at h
  induction h with
  | nil => exact .noPieces
  | @cons c t l ts hc _ ih =>
    unfold templatePiece at hc
    split at hc
    · rename_i hk
      cases hc
      exact .backquote hk ih
    · rename_i hk
      obtain ⟨u, hu, hc⟩ := bind_eq_ok.mp hc
      exact .escape hk (lift_eq_ok.mp hu) (lift_eq_ok.mp hc) ih
    · rename_i hk
      obtain ⟨w, hw, hc⟩ := bind_eq_ok.mp hc
      obtain ⟨q, hq, hw⟩ := ofOnlyPart_eq_ok.mp hw
      exact .substitution hk hq (hinner _ w hw) (lift_eq_ok.mp hc) ih
    · rename_i h₁ h₂ h₃
      exact .fragment h₁ h₂ h₃ (lift_eq_ok.mp hc) ih

theorem derives_of_items (hinner : ∀ q w, inner q = .ok w → Derives s (.value q.1 w))
    {l : List (Inner p)} {vs : List Value}
    (h : (l.mapM fun c ↦
      if c.1.kind = "spread_element" then Except.error Stop.notConstant else inner c) = .ok vs) :
    Derives s (.items (l.map Subtype.val) vs) := by
  rw [mapM_eq_ok] at h
  induction h with
  | nil => exact .noItems
  | @cons c v l vs hc _ ih =>
    split at hc
    · cases hc
    · rename_i hk
      exact .item hk (hinner c v hc) ih

theorem derives_of_members (hinner : ∀ q w, inner q = .ok w → Derives s (.value q.1 w))
    {byName : Place → Outcome} (hname : ∀ q w, byName q = .ok w → Derives s (.name q w))
    {l : List (Inner p)} {before after : List (Text × Value)}
    (h : l.foldlM (addMember s p inner byName) before = .ok after) :
    Derives s (.members (l.map Subtype.val) before after) := by
  induction l generalizing before with
  | nil =>
    cases h
    exact .noMembers
  | cons c l ih =>
    rw [List.foldlM_cons] at h
    obtain ⟨added, hc, h⟩ := bind_eq_ok.mp h
    unfold addMember at hc
    split at hc
    · rename_i hk
      split at hc
      · rename_i key value hkey hvalue
        obtain ⟨name, hn, hc⟩ := bind_eq_ok.mp hc
        obtain ⟨w, hw, hc⟩ := bind_eq_ok.mp hc
        cases pure_eq_ok.mp hc
        exact .pair hk (fieldOf?_eq_some.mp hkey) (fieldOf?_eq_some.mp hvalue) hn
          (hinner _ w hw) (ih h)
      · cases hc
    · rename_i hk
      obtain ⟨w, hw, hc⟩ := bind_eq_ok.mp hc
      obtain ⟨name, hn, hc⟩ := bind_eq_ok.mp hc
      cases pure_eq_ok.mp hc
      exact .shorthand hk (hname _ w hw) (lift_eq_ok.mp hn) (ih h)
    · cases hc

theorem derives_of_ofBinary (hinner : ∀ q w, inner q = .ok w → Derives s (.value q.1 w))
    (hk : p.kind = "binary_expression") (h : ofBinary p inner = .ok v) :
    Derives s (.value p v) := by
  obtain ⟨operator, l, r, ho, hl, hr, u, hu, h⟩ := ofBinary_eq_ok.mp h
  have hleft := hinner l u hu
  obtain ⟨hs, rfl⟩ | ⟨hs, h⟩ | ⟨hs, w, hw, h⟩ := h
  · exact .left hk ho hl hr hleft hs
  · exact .right hk ho hl hr hleft hs (hinner r v h)
  · exact .binary hk ho hl hr hleft hs (hinner r w hw) h

theorem derives_of_ofUnary (hinner : ∀ q w, inner q = .ok w → Derives s (.value q.1 w))
    (hk : p.kind = "unary_expression") (h : ofUnary p inner = .ok v) : Derives s (.value p v) := by
  unfold ofUnary at h
  split at h
  · rename_i operator argument ho ha
    rw [fieldOf?_eq_some] at ho ha
    split at h <;> rename_i hop
    · cases h
      exact .void hk ho ha hop
    · obtain ⟨w, hw, h⟩ := bind_eq_ok.mp h
      exact .unary hk ho ha hop (hinner argument w hw) h
  · cases h

theorem derives_of_rule (hinner : ∀ q w, inner q = .ok w → Derives s (.value q.1 w))
    (hfollow : ∀ b q w, follow b q = .ok w → Derives s (.value q w))
    (h : rule s p inner follow = .ok v) : Derives s (.value p v) := by
  unfold rule at h
  split at h
  · rename_i hw
    split at h
    · rename_i q rest hq
      have hparts : p.parts = q.1 :: rest.map Subtype.val := by
        rw [← map_val_partsOf, hq, List.map_cons]
      exact .wrapper hw hparts (hinner q v h)
    · cases h
  split at h <;> rename_i hk
  · obtain ⟨t, ht, h⟩ := bind_eq_ok.mp h
    cases pure_eq_ok.mp h
    exact .string hk (lift_eq_ok.mp ht)
  · obtain ⟨ts, hts, h⟩ := bind_eq_ok.mp h
    cases pure_eq_ok.mp h
    exact .template hk (map_val_childrenOf p ▸ derives_of_pieces hinner hts)
  · obtain ⟨n, hn, h⟩ := bind_eq_ok.mp h
    cases pure_eq_ok.mp h
    exact .number hk (lift_eq_ok.mp hn)
  · cases h
    exact .yes hk
  · cases h
    exact .no hk
  · cases h
    exact .null hk
  · cases h
    exact .undefined hk
  · exact .identifier hk (derives_of_ofName hfollow h)
  · obtain ⟨q, hq, h⟩ := ofOnlyPart_eq_ok.mp h
    exact .embedded hk hq (hinner q v h)
  · exact derives_of_ofBinary hinner hk h
  · exact derives_of_ofUnary hinner hk h
  · obtain ⟨w, hw, h⟩ := bind_eq_ok.mp h
    obtain ⟨condition, hcondition, hw⟩ := ofField_eq_ok.mp hw
    obtain ⟨branch, hbranch, h⟩ := ofField_eq_ok.mp h
    exact .ternary hk hcondition (hinner condition w hw) hbranch (hinner branch v h)
  · obtain ⟨members, hm, h⟩ := bind_eq_ok.mp h
    cases pure_eq_ok.mp h
    exact .object hk (map_val_partsOf p ▸
      derives_of_members hinner (fun q w ↦ derives_of_ofName hfollow) hm)
  · obtain ⟨vs, hvs, h⟩ := bind_eq_ok.mp h
    cases pure_eq_ok.mp h
    exact .array hk (map_val_partsOf p ▸ derives_of_items hinner hvs)
  · cases h

end Soundness

end MessageExtraction.Folding
