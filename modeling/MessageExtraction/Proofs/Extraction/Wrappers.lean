import MessageExtraction.Proofs.Extraction.Declarations
import MessageExtraction.Proofs.Folding.Exactness

/-!
Wrappers around an expression: parentheses, and what only a type checker reads. The expression is
reached through any number of them, and the whole has its value, unless one of them is an assertion
with the type in front or has a markup comment in front of its operand.
-/

namespace MessageExtraction

open Folding

namespace Place

variable {w e c q : Place} {ws : List Place}

def commentKinds : List String := ["comment", "html_comment"]

/-- What may stand in front of the operand of a wrapper: a sign, a comment, the type of an
assertion. -/
def IsAside (w c : Place) : Prop :=
  c.node.isNamed = false ∨ c.kind ∈ commentKinds ∨
    w.kind = "type_assertion" ∧ c.kind = "type_arguments"

/-- A wrapper stands around an operand. In an assertion the type comes first, in all others the
operand does. -/
structure HasOperand (w e : Place) : Prop where
  isWrapper : w.isWrapper = true
  isNamed : e.node.isNamed = true
  not_comment : e.kind ∉ commentKinds
  split : ∃ before after, w.children = before ++ e :: after ∧ (∀ c ∈ before, w.IsAside c) ∧
    (w.kind = "type_assertion" →
      ∃ c ∈ before, c.node.isNamed = true ∧ c.kind = "type_arguments")

/-- Wrappers one in the other, the outermost first, and the expression in the innermost. -/
inductive Wraps : Place → List Place → Place → Prop
  | nil (e : Place) : Wraps e [] e
  | cons {w q e : Place} {ws : List Place} : w.HasOperand q → Wraps q ws e → Wraps w (w :: ws) e

/-- The first part of a wrapper is the type of an assertion or a markup comment. -/
def HidesOperand (w : Place) : Prop :=
  w.kind = "type_assertion" ∨ ∃ c, w.parts.head? = some c ∧ c.kind = "html_comment"

/-- The kinds of nodes that hide an operand. -/
def hidingKinds : List String := ["type_arguments", "html_comment"]

theorem HasOperand.mem_children (h : w.HasOperand e) : e ∈ w.children := by
  obtain ⟨before, after, hchildren, -⟩ := h.split
  simp [hchildren]

theorem Wraps.mem_subtree (h : w.Wraps ws e) : e ∈ w.subtree := by
  induction h with
  | nil e => exact self_mem_subtree e
  | cons hq _ ih => exact mem_subtree_trans (mem_subtree_of_mem_children hq.mem_children) ih

/-- The first part of a wrapper is its operand, or something in front of that. -/
theorem HasOperand.head?_cases (h : w.HasOperand e) :
    ¬w.HidesOperand ∧ w.parts.head? = some e ∨
    w.HidesOperand ∧ ∃ c ∈ w.children, w.parts.head? = some c ∧ c ≠ e ∧ c.kind ∈ hidingKinds := by
  obtain ⟨before, after, hchildren, haside, htype⟩ := h.split
  have hpart : (e.node.isNamed && e.kind != "comment") = true := by
    have hne : e.kind ≠ "comment" := fun hk ↦ h.not_comment (by simp [hk, commentKinds])
    simp [h.isNamed, hne]
  have hparts : w.parts = before.filter (fun c ↦ c.node.isNamed && c.kind != "comment") ++
      e :: after.filter (fun c ↦ c.node.isNamed && c.kind != "comment") := by
    rw [parts, hchildren, List.filter_append, List.filter_cons, if_pos hpart]
  -- The first part is the operand iff nothing in front of it is a part.
  cases hfirst : before.filter (fun c ↦ c.node.isNamed && c.kind != "comment") with
  | nil =>
    have hhead : w.parts.head? = some e := by rw [hparts, hfirst]; rfl
    refine .inl ⟨?_, hhead⟩
    intro hhides
    obtain hk | ⟨c, hc, hk⟩ := hhides
    · obtain ⟨c, hc, hnamed, hck⟩ := htype hk
      have hmem : c ∈ before.filter (fun c ↦ c.node.isNamed && c.kind != "comment") := by
        simp [hc, hnamed, hck]
      rw [hfirst] at hmem
      cases hmem
    · rw [hhead] at hc
      cases hc
      exact h.not_comment (by simp [hk, commentKinds])
  | cons c rest =>
    have hhead : w.parts.head? = some c := by rw [hparts, hfirst]; rfl
    have hmem : c ∈ before.filter (fun c ↦ c.node.isNamed && c.kind != "comment") := by
      simp [hfirst]
    obtain ⟨hc, hnamed⟩ := List.mem_filter.mp hmem
    simp only [Bool.and_eq_true, bne_iff_ne] at hnamed
    have hne : c ≠ e := by
      intro heq
      subst heq
      have hnodup := nodup_children w
      rw [hchildren, List.nodup_append] at hnodup
      exact hnodup.2.2 c hc c List.mem_cons_self rfl
    have hkind : w.HidesOperand ∧ c.kind ∈ hidingKinds := by
      obtain hunnamed | hcomment | ⟨hw, hk⟩ := haside c hc
      · rw [hunnamed] at hnamed
        cases hnamed.1
      · have hk : c.kind = "html_comment" := by
          simpa [commentKinds, hnamed.2] using hcomment
        exact ⟨.inr ⟨c, hhead, hk⟩, by simp [hk, hidingKinds]⟩
      · exact ⟨.inl hw, by simp [hk, hidingKinds]⟩
    have hchild : c ∈ w.children := by simp [hchildren, hc]
    exact .inr ⟨hkind.1, c, hchild, hhead, hne, hkind.2⟩

theorem unwrapped_of_head? (hw : w.isWrapper = true) (hq : w.parts.head? = some q) :
    w.unwrapped = q.unwrapped := by
  rw [unwrapped, if_pos hw]
  split
  · rename_i inner hinner
    rw [Option.some.inj (hinner.symm.trans hq)]
  · rename_i hnone
    rw [hq] at hnone
    cases hnone

theorem unwrapped_of_hidingKinds (hc : c.kind ∈ hidingKinds) : c.unwrapped = c := by
  apply unwrapped_of_not_isWrapper
  have hdisjoint : ∀ kind ∈ hidingKinds, wrapperKinds.contains kind = false := by decide
  exact hdisjoint c.kind hc

theorem unwrapped_mem_subtree (p : Place) : p.unwrapped ∈ p.subtree := by
  rw [unwrapped]
  split
  · split
    · rename_i inner hinner
      have hchild := mem_children_of_head?_parts hinner
      have hlt := sizeOf_node_lt hchild
      exact mem_subtree_trans (mem_subtree_of_mem_children hchild) (unwrapped_mem_subtree inner)
    · exact self_mem_subtree p
  · exact self_mem_subtree p
termination_by sizeOf p.node

theorem unwrapped_unwrapped (p : Place) : p.unwrapped.unwrapped = p.unwrapped := by
  by_cases hw : p.isWrapper = true
  · cases hq : p.parts.head? with
    | some q =>
      have hlt := sizeOf_node_lt (mem_children_of_head?_parts hq)
      rw [unwrapped_of_head? hw hq]
      exact unwrapped_unwrapped q
    | none =>
      have hself : p.unwrapped = p := by
        rw [unwrapped, if_pos hw]
        split
        · simp_all
        · rfl
      rw [hself, hself]
  · rw [Bool.not_eq_true] at hw
    rw [unwrapped_of_not_isWrapper hw, unwrapped_of_not_isWrapper hw]
termination_by sizeOf p.node

/-- Through wrappers the same node is reached as from the expression in them, or else one that hides
an operand and stands outside of the expression. -/
theorem Wraps.unwrapped_cases (h : w.Wraps ws e) :
    (∀ q ∈ ws, ¬q.HidesOperand) ∧ w.unwrapped = e.unwrapped ∨
    (∃ q ∈ ws, q.HidesOperand) ∧ w.unwrapped.kind ∈ hidingKinds ∧ w.unwrapped ∉ e.subtree := by
  induction h with
  | nil e => exact .inl ⟨by simp, rfl⟩
  | @cons w q e ws hq hrest ih =>
    obtain ⟨hopen, hhead⟩ | ⟨hhides, c, hc, hhead, hne, hkind⟩ := hq.head?_cases
    · rw [unwrapped_of_head? hq.isWrapper hhead]
      obtain ⟨hall, heq⟩ | ⟨⟨t, ht, hhides⟩, hoff⟩ := ih
      · exact .inl ⟨List.forall_mem_cons.mpr ⟨hopen, hall⟩, heq⟩
      · exact .inr ⟨⟨t, List.mem_cons_of_mem _ ht, hhides⟩, hoff⟩
    -- What is reached is a sibling of the operand, and everything inside is in the operand.
    · rw [unwrapped_of_head? hq.isWrapper hhead, unwrapped_of_hidingKinds hkind]
      refine .inr ⟨⟨w, List.mem_cons_self, hhides⟩, hkind, ?_⟩
      intro hmem
      have hbelow := mem_subtree_trans hrest.mem_subtree hmem
      exact hne (eq_of_mem_subtree_of_siblings hc hq.mem_children (self_mem_subtree c) hbelow)

end Place

namespace Source

open Place

variable {s : Source} {p q : Place} {pending : List (List Nat)}

theorem foldWith_of_head? (hw : p.isWrapper = true) (hq : p.parts.head? = some q) :
    s.foldWith pending p = s.foldWith pending q := by
  obtain ⟨rest, hparts⟩ := List.head?_eq_some_iff.mp hq
  rw [← map_val_partsOf] at hparts
  obtain ⟨inner, others, hinner, rfl, -⟩ := List.map_eq_cons_iff.mp hparts
  rw [foldWith, rule, if_pos hw, hinner]

theorem foldWith_unwrapped (p : Place) : s.foldWith pending p.unwrapped = s.foldWith pending p := by
  rw [unwrapped]
  split
  · rename_i hw
    split
    · rename_i inner hinner
      have hlt := sizeOf_node_lt (mem_children_of_head?_parts hinner)
      rw [foldWith_of_head? hw hinner]
      exact foldWith_unwrapped inner
    · rfl
  · rfl
termination_by sizeOf p.node

theorem fold_unwrapped (p : Place) : s.fold p.unwrapped = s.fold p := foldWith_unwrapped p

theorem fold_of_hidingKinds (hp : p.kind ∈ hidingKinds) : s.fold p = .error .notConstant := by
  simp only [hidingKinds, List.mem_cons, List.not_mem_nil, or_false] at hp
  obtain hk | hk := hp
  · rw [fold, foldWith, rule, if_neg (Judgement.not_isWrapper_of_kind hk rfl), hk]
    rfl
  · rw [fold, foldWith, rule, if_neg (Judgement.not_isWrapper_of_kind hk rfl), hk]
    rfl

end Source

namespace Extraction

open Place

variable {x : Extraction} {p w e : Place} {ws : List Place}

theorem isMessageCall_unwrapped (p : Place) : x.isMessageCall p.unwrapped = x.isMessageCall p := by
  rw [isMessageCall, isMessageCall, unwrapped_unwrapped]

theorem isMessageCall_of_hidingKinds (hp : p.kind ∈ hidingKinds) :
    x.isMessageCall p = .ok false := by
  rw [isMessageCall, unwrapped_of_hidingKinds hp]
  simp only [hidingKinds, List.mem_cons, List.not_mem_nil, or_false] at hp
  obtain hk | hk := hp
  · simp only [hk]
    rfl
  · simp only [hk]
    rfl

theorem visitCall_of_not_callee (hp : p.field? "function" = some w)
    (hw : x.isMessageCall w = .ok false) : (visitCall p).run x = .ok () x := by
  rw [run_visitCall hp, hw]

/-- Wrappers let the node in them be reached iff none of them hides its operand. The whole then has
the value of what is in them and is the callee of a message iff that is one; else it has no value and
is none, which makes no difference only if the same holds of what is in the wrappers, and a call of
it declares nothing. -/
theorem wrapped_same_iff (h : w.Wraps ws e) (s : Source) (x : Extraction) :
    (w.unwrapped = e.unwrapped ↔ ∀ q ∈ ws, ¬q.HidesOperand) ∧
    (s.fold w = s.fold e ↔
      (∀ q ∈ ws, ¬q.HidesOperand) ∨ s.fold e = .error .notConstant) ∧
    (x.isMessageCall w = x.isMessageCall e ↔
      (∀ q ∈ ws, ¬q.HidesOperand) ∨ x.isMessageCall e = .ok false) ∧
    ((∃ q ∈ ws, q.HidesOperand) →
      ∀ p : Place, p.field? "function" = some w → (visitCall p).run x = .ok () x) := by
  rw [← s.fold_unwrapped w, ← s.fold_unwrapped e, ← isMessageCall_unwrapped w,
    ← isMessageCall_unwrapped e]
  obtain ⟨hopen, heq⟩ | ⟨⟨q, hq, hhides⟩, hkind, hoff⟩ := h.unwrapped_cases
  · simp only [heq, true_iff]
    exact ⟨hopen, .inl hopen, .inl hopen, fun ⟨q, hq, hhides⟩ ↦ absurd hhides (hopen q hq)⟩
  · have hnot : ¬∀ q ∈ ws, ¬q.HidesOperand := fun hall ↦ hall q hq hhides
    have hne : w.unwrapped ≠ e.unwrapped := by
      intro heq
      exact hoff (heq ▸ unwrapped_mem_subtree e)
    have hcallee := isMessageCall_of_hidingKinds (x := x) hkind
    rw [Source.fold_of_hidingKinds hkind, hcallee]
    refine ⟨iff_of_false hne hnot, ?_, ?_, fun _ p hp ↦ ?_⟩
    · exact ⟨fun heq ↦ .inr heq.symm, fun hor ↦ (hor.resolve_left hnot).symm⟩
    · exact ⟨fun heq ↦ .inr heq.symm, fun hor ↦ (hor.resolve_left hnot).symm⟩
    · rw [isMessageCall_unwrapped] at hcallee
      exact visitCall_of_not_callee hp hcallee

end Extraction

namespace WrappedText

def quotedLetter (start : Nat) : Node :=
  ⟨"string", true, start, start + 3, [],
    [.token "'" start (start + 1), .leaf "string_fragment" (start + 1) (start + 2),
      .token "'" (start + 2) (start + 3)]⟩

def textType (start : Nat) : Node :=
  ⟨"predefined_type", true, start, start + 6, [], [.token "string" start (start + 6)]⟩

/-- The statement `(/* c */ 'a' as string)!`. -/
def commentedText : Source where
  filename := "a.ts"
  path := "a.ts"
  bytes := (Utf8.encode? "(/* c */ 'a' as string)!").getD []
  tree := ⟨"program", true, 0, 24, [],
    [⟨"expression_statement", true, 0, 24, [],
      [⟨"non_null_expression", true, 0, 24, [],
        [⟨"parenthesized_expression", true, 0, 23, [],
          [.token "(" 0 1, .leaf "comment" 1 8,
            ⟨"as_expression", true, 9, 22, [],
              [quotedLetter 9, .token "as" 13 15, textType 16]⟩,
            .token ")" 22 23]⟩,
          .token "!" 23 24]⟩]⟩]⟩
  hasErrors := false

/-- The statement `const p = <string>'a';`. -/
def assertedText : Source where
  filename := "a.ts"
  path := "a.ts"
  bytes := (Utf8.encode? "const p = <string>'a';").getD []
  tree := ⟨"program", true, 0, 22, [],
    [⟨"lexical_declaration", true, 0, 22, [],
      [.token "const" 0 5,
        ⟨"variable_declarator", true, 6, 21, [("name", 0), ("value", 2)],
          [.leaf "identifier" 6 7, .token "=" 8 9,
            ⟨"type_assertion", true, 10, 21, [],
              [⟨"type_arguments", true, 10, 18, [],
                [.token "<" 10 11, textType 11, .token ">" 17 18]⟩,
                quotedLetter 18]⟩]⟩,
        .token ";" 21 22]⟩]⟩
  hasErrors := false

def certainText : Place := childAt (childAt commentedText.root 0) 0

def parenthesizedText : Place := childAt certainText 0

def typedText : Place := childAt parenthesizedText 2

def assertion : Place := childAt (childAt (childAt assertedText.root 0) 1) 2

theorem wraps_certainText :
    certainText.Wraps [certainText, parenthesizedText, typedText] (childAt typedText 0) := by
  have hcertain : certainText.HasOperand parenthesizedText :=
    ⟨rfl, rfl, by decide, [], [childAt certainText 1], rfl, by simp, fun h ↦ absurd h (by decide)⟩
  have hparenthesized : parenthesizedText.HasOperand typedText := by
    refine ⟨rfl, rfl, by decide, [childAt parenthesizedText 0, childAt parenthesizedText 1],
      [childAt parenthesizedText 3], rfl, ?_, fun h ↦ absurd h (by decide)⟩
    intro c hc
    simp only [List.mem_cons, List.not_mem_nil, or_false] at hc
    obtain rfl | rfl := hc
    · exact .inl rfl
    · exact .inr (.inl (by decide))
  have htyped : typedText.HasOperand (childAt typedText 0) :=
    ⟨rfl, rfl, by decide, [], [childAt typedText 1, childAt typedText 2], rfl, by simp,
      fun h ↦ absurd h (by decide)⟩
  exact .cons hcertain (.cons hparenthesized (.cons htyped (.nil _)))

theorem wraps_assertion : assertion.Wraps [assertion] (childAt assertion 1) := by
  have hassertion : assertion.HasOperand (childAt assertion 1) := by
    refine ⟨rfl, rfl, by decide, [childAt assertion 0], [], rfl, ?_,
      fun _ ↦ ⟨_, List.mem_singleton_self _, rfl, rfl⟩⟩
    intro c hc
    rw [List.mem_singleton.mp hc]
    exact .inr (.inr ⟨rfl, rfl⟩)
  exact .cons hassertion (.nil _)

/-- A text in parentheses with a comment, a type and a mark of certainty keeps its value. -/
theorem certainText_keeps_value :
    certainText.Wraps [certainText, parenthesizedText, typedText] (childAt typedText 0) ∧
    certainText.unwrapped = (childAt typedText 0).unwrapped ∧
    commentedText.fold certainText = commentedText.fold (childAt typedText 0) := by
  have h := Extraction.wrapped_same_iff wraps_certainText commentedText
    (Extraction.fresh commentedText .standard)
  have hopen : ∀ q ∈ [certainText, parenthesizedText, typedText], ¬q.HidesOperand := by
    intro q hq hhides
    simp only [List.mem_cons, List.not_mem_nil, or_false] at hq
    obtain hk | ⟨c, hc, hk⟩ := hhides
    · obtain rfl | rfl | rfl := hq <;> exact absurd hk (by decide)
    · obtain rfl | rfl | rfl := hq <;> cases hc <;> exact absurd hk (by decide)
  exact ⟨wraps_certainText, h.1.mpr hopen, h.2.1.mpr (.inl hopen)⟩

/-- An assertion around a text has no value, though the text has one. -/
theorem assertion_loses_value :
    assertion.Wraps [assertion] (childAt assertion 1) ∧
    assertion.unwrapped = childAt assertion 0 ∧
    assertedText.fold assertion = .error .notConstant ∧
    assertedText.fold (childAt assertion 1) = .ok (.text "a") := by
  have htype : assertion.unwrapped = childAt assertion 0 := by
    rw [Place.unwrapped_of_head? rfl rfl]
    exact Place.unwrapped_of_not_isWrapper rfl
  refine ⟨wraps_assertion, htype, ?_, ?_⟩
  · rw [← Source.fold_unwrapped, htype]
    exact Source.fold_of_hidingKinds (by decide)
  · rw [Source.fold, Source.foldWith_eq_foldFrom]
    exact Judgement.holds_string rfl (by cbv)

end WrappedText

end MessageExtraction
