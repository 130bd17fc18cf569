import MessageExtraction.Proofs.Scope.Resolution

/-!
Declarations that belong to the block, the loop or the handler they stand in. Such a name hides all
outer ones, unless it is declared where no table looks: in a case of a switch, or behind a label.
-/

namespace MessageExtraction

namespace Place

variable {scope statement x : Place}

/-- A statement declares a name in the block that it stands in, and in no wider one. -/
inductive DeclaresLocally (statement : Place) : Place → Prop
  | variable {x : Place} :
      statement.kind = "lexical_declaration" → statement.DeclarationBinds x →
      DeclaresLocally statement x
  | function {x : Place} :
      statement.kind = "function_declaration" ∨ statement.kind = "generator_function_declaration" →
      statement.field? "name" = some x → DeclaresLocally statement x
  | class {x : Place} :
      statement.kind = "class_declaration" ∨ statement.kind = "abstract_class_declaration" →
      statement.field? "name" = some x → DeclaresLocally statement x

/-- A statement stands behind a label, or behind several. -/
inductive Labels : Place → Place → Prop
  | body {p q : Place} : p.kind = "labeled_statement" → p.field? "body" = some q → Labels p q
  | nested {p q t : Place} :
      p.kind = "labeled_statement" → p.field? "body" = some q → Labels q t → Labels p t

theorem Labels.kind_eq {p q : Place} (h : p.Labels q) : p.kind = "labeled_statement" := by
  cases h <;> assumption

/-- A scope declares a name by a statement of a block, in the head of a loop, or as what a handler
catches. -/
inductive DeclaresOpenly (scope : Place) : Place → Prop
  | statement {statement x : Place} :
      scope.kind = "statement_block" → statement ∈ scope.parts.filterMap Source.exported? →
      statement.DeclaresLocally x → DeclaresOpenly scope x
  | loopVariable {d x : Place} :
      scope.kind = "for_statement" → scope.field? "initializer" = some d →
      d.kind = "lexical_declaration" → d.DeclarationBinds x → DeclaresOpenly scope x
  | item {keyword left x : Place} :
      scope.kind = "for_in_statement" → keyword ∈ scope.children →
      keyword.kind = "const" ∨ keyword.kind = "let" → scope.field? "left" = some left →
      left.Binds x → DeclaresOpenly scope x
  | caught {q x : Place} :
      scope.kind = "catch_clause" → scope.field? "parameter" = some q → q.Binds x →
      DeclaresOpenly scope x

/-- A scope overlooks a name that is declared in a case of a switch, or behind a label. -/
inductive Overlooks (scope : Place) : Place → Prop
  | case {c statement x : Place} :
      scope.kind = "switch_body" → c ∈ scope.parts →
      c.kind = "switch_case" ∨ c.kind = "switch_default" →
      statement ∈ c.parts.filterMap Source.exported? → statement.DeclaresLocally x → Overlooks scope x
  | labelledCase {c labelled statement x : Place} :
      scope.kind = "switch_body" → c ∈ scope.parts →
      c.kind = "switch_case" ∨ c.kind = "switch_default" → labelled ∈ c.parts →
      labelled.Labels statement → statement.DeclaresLocally x → Overlooks scope x
  | labelled {labelled statement x : Place} :
      scope.kind = "statement_block" → labelled ∈ scope.parts → labelled.Labels statement →
      statement.DeclaresLocally x → Overlooks scope x

def DeclaresLexically (scope x : Place) : Prop := scope.DeclaresOpenly x ∨ scope.Overlooks x

theorem DeclarationBinds.mem_subtree (h : statement.DeclarationBinds x) : x ∈ statement.subtree := by
  obtain ⟨k, hnames⟩ := h.exists_names
  exact hnames.exposes.mem_subtree

theorem DeclaresLocally.mem_subtree (h : statement.DeclaresLocally x) : x ∈ statement.subtree := by
  cases h with
  | «variable» _ hx => exact hx.mem_subtree
  | function _ hx => exact mem_subtree_of_field? hx
  | «class» _ hx => exact mem_subtree_of_field? hx

theorem Labels.mem_subtree {p q : Place} (h : p.Labels q) : q ∈ p.subtree := by
  induction h with
  | body _ hq => exact mem_subtree_of_field? hq
  | nested _ hq _ ih => exact mem_subtree_trans (mem_subtree_of_field? hq) ih

theorem mem_subtree_of_exported? {p : Place} (h : Source.exported? p = some statement) :
    statement ∈ p.subtree := by
  rw [Source.exported?] at h
  split at h
  · exact mem_subtree_of_field? h
  · cases h
    exact self_mem_subtree _

/-- What is overlooked stands in a part of the scope that is no declaration by itself. -/
theorem Overlooks.exists_part (h : scope.Overlooks x) : scope.kind ∈ blockKinds ∧
    ∃ c ∈ scope.parts, x ∈ c.subtree ∧
      c.kind ∈ ["switch_case", "switch_default", "labeled_statement"] := by
  cases h with
  | @case c _ _ hk hc hkind hstatement hx =>
    obtain ⟨p, hp, hstatement⟩ := List.mem_filterMap.mp hstatement
    have hbelow := mem_subtree_trans (mem_subtree_of_mem_parts hp)
      (mem_subtree_trans (mem_subtree_of_exported? hstatement) hx.mem_subtree)
    refine ⟨by simp [hk, blockKinds], c, hc, hbelow, ?_⟩
    obtain hkind | hkind := hkind <;> simp [hkind]
  | @labelledCase c _ _ _ hk hc hkind hlabelled hlabels hx =>
    have hbelow := mem_subtree_trans (mem_subtree_of_mem_parts hlabelled)
      (mem_subtree_trans hlabels.mem_subtree hx.mem_subtree)
    refine ⟨by simp [hk, blockKinds], c, hc, hbelow, ?_⟩
    obtain hkind | hkind := hkind <;> simp [hkind]
  | labelled hk hlabelled hlabels hx =>
    exact ⟨by simp [hk, blockKinds], _, hlabelled,
      mem_subtree_trans hlabels.mem_subtree hx.mem_subtree, by simp [hlabels.kind_eq]⟩

theorem exists_find?_keyword {keyword : Place} (h : keyword ∈ scope.children)
    (hk : keyword.kind = "const" ∨ keyword.kind = "let") :
    ∃ first, scope.children.find? (fun c ↦ c.kind == "const" || c.kind == "let") = some first := by
  rw [← Option.isSome_iff_exists, List.find?_isSome]
  refine ⟨keyword, h, ?_⟩
  obtain hk | hk := hk <;> simp [hk]

end Place

namespace Source

open Place

variable {s : Source} {scope r x : Place} {n : Text}

theorem exists_statementNames {statement : Place} (h : statement.DeclaresLocally x) :
    ∃ k, s.StatementNames statement x k := by
  cases h with
  | «variable» hk hx =>
    obtain ⟨k, hnames⟩ := hx.exists_names
    exact ⟨k, .variable hk hnames⟩
  | function hk hx => exact ⟨_, .function hk hx⟩
  | «class» hk hx => exact ⟨_, .class hk hx⟩

/-- What is declared in the open is in the table of the scope. -/
theorem exists_introduces (h : scope.DeclaresOpenly x) : ∃ k, s.Introduces scope x k := by
  cases h with
  | statement hk hstatement hx =>
    obtain ⟨k, hnames⟩ := exists_statementNames hx
    have hblock : scope.kind ∈ blockKinds := by simp [hk, blockKinds]
    exact ⟨k, .statement ⟨.inr hblock, hstatement⟩ hnames⟩
  | loopVariable hk hd hlexical hx =>
    obtain ⟨k, hnames⟩ := hx.exists_names
    exact ⟨k, .loopVariable hk hd hlexical hnames⟩
  | item hk hkeyword hkind hleft hx =>
    obtain ⟨first, hfirst⟩ := exists_find?_keyword hkeyword hkind
    exact ⟨_, .item hk hleft hfirst hx⟩
  | caught hk hq hx => exact ⟨_, .caught hk hq hx⟩

theorem StatementNames.mem_subtree {statement : Place} {k : BindingKind}
    (h : s.StatementNames statement x k) : x ∈ statement.subtree := by
  cases h with
  | «import» _ hx => exact hx.exposes.mem_subtree
  | «variable» _ hx => exact hx.exposes.mem_subtree
  | function _ hx => exact mem_subtree_of_field? hx
  | «class» _ hx => exact mem_subtree_of_field? hx

/-- What is overlooked is not in the table of the scope. -/
theorem not_introduces_of_overlooks {k : BindingKind} (h : scope.Overlooks x) :
    ¬s.Introduces scope x k := by
  obtain ⟨hblock, c, hc, hx, hkind⟩ := h.exists_part
  have hkinds := hblock
  simp only [blockKinds, List.mem_cons, List.not_mem_nil, or_false] at hkinds hkind
  intro hintroduces
  cases hintroduces with
  | statement hstatement hnames =>
    obtain ⟨p, hp, hexported⟩ := List.mem_filterMap.mp hstatement.2
    have hxp := mem_subtree_trans (mem_subtree_of_exported? hexported) hnames.mem_subtree
    -- The name is below one part of the scope only, and that is of no kind that declares anything.
    obtain rfl := eq_of_mem_subtree_of_siblings (mem_children_of_mem_parts hp)
      (mem_children_of_mem_parts hc) hxp hx
    have hexport : p.kind ≠ "export_statement" := by
      obtain hkind | hkind | hkind := hkind <;> simp [hkind]
    rw [exported?, if_neg hexport] at hexported
    obtain rfl := Option.some.inj hexported
    cases hnames with
    | _ hk => obtain hkind | hkind | hkind := hkind <;> simp [hkind] at hk
  | _ hk =>
    obtain hkinds | hkinds | hkinds := hkinds <;> simp [isFunction, hkinds, functionKinds] at hk

/-- A name that a block, a loop or a handler declares refers in all of it to a binding of that scope,
or of a nearer one, iff the scope does not overlook the declaration, or one of these scopes has
another of the name, and no table is unreadable on the way there. The table of the scope has the
declaration itself iff it is not overlooked. -/
theorem lexical_declaration_shadows_iff (hr : r ∈ s.places) (hx : scope.DeclaresLexically x)
    (hn : s.textOf x = .ok n) :
    ((∃ found b, found.IsScopeWithin r scope ∧ s.RefersTo r n found b) ↔
      ∃ q : Place, q.IsScopeWithin r scope ∧ (q = scope ∧ ¬scope.Overlooks x ∨ s.Names q n) ∧
        ∀ p : Place, p.IsScopeWithin r q → s.Readable p) ∧
    (¬scope.Overlooks x ↔ ∃ k, s.Introduces scope x k) := by
  have hopen (hopen : ¬scope.Overlooks x) : ∃ k, s.Introduces scope x k :=
    exists_introduces (hx.resolve_right hopen)
  refine ⟨?_, hopen, fun ⟨_, h⟩ hoverlooks ↦ not_introduces_of_overlooks hoverlooks h⟩
  rw [exists_refersTo_iff hr]
  constructor
  · intro ⟨q, hq, hnames, hreadable⟩
    exact ⟨q, hq, .inr hnames, hreadable⟩
  · intro ⟨q, hq, hnames, hreadable⟩
    refine ⟨q, hq, ?_, hreadable⟩
    obtain ⟨rfl, hnot⟩ | hnames := hnames
    · obtain ⟨k, hk⟩ := hopen hnot
      exact ⟨x, k, hk, hn⟩
    · exact hnames

end Source

namespace CaseVariable

def outerName : Node := .leaf "identifier" 6 7

def declareOuter : Node := ⟨"variable_declarator", true, 6, 7, [("name", 0)], [outerName]⟩

def letOuter : Node :=
  ⟨"lexical_declaration", true, 2, 8, [],
    [.token "let" 2 5, declareOuter, .token ";" 7 8]⟩

def subject : Node :=
  ⟨"parenthesized_expression", true, 16, 19, [],
    [.token "(" 16 17, .leaf "identifier" 17 18,
      .token ")" 18 19]⟩

def innerName : Node := .leaf "identifier" 34 35

def declareInner : Node := ⟨"variable_declarator", true, 34, 35, [("name", 0)], [innerName]⟩

def letInner : Node :=
  ⟨"lexical_declaration", true, 30, 36, [],
    [.token "let" 30 33, declareInner, .token ";" 35 36]⟩

def useInner : Node :=
  ⟨"expression_statement", true, 37, 39, [],
    [.leaf "identifier" 37 38, .token ";" 38 39]⟩

def switchCase : Node :=
  ⟨"switch_case", true, 22, 39, [("value", 1), ("body", 3)],
    [.token "case" 22 26, .leaf "identifier" 27 28,
      .token ":" 28 29, letInner, useInner]⟩

def switchBody : Node :=
  ⟨"switch_body", true, 20, 41, [],
    [.token "\x7b" 20 21, switchCase, .token "\x7d" 40 41]⟩

def switch : Node :=
  ⟨"switch_statement", true, 9, 41, [("value", 1), ("body", 2)],
    [.token "switch" 9 15, subject, switchBody]⟩

def block : Node :=
  ⟨"statement_block", true, 0, 43, [],
    [.token "\x7b" 0 1, letOuter, switch, .token "\x7d" 42 43]⟩

def program : Node := ⟨"program", true, 0, 43, [], [block]⟩

/-- The statement `{ let a; switch (a) { case a: let a; a; } }`. -/
def source : Source where
  filename := "a.js"
  path := "a.js"
  bytes := (Utf8.encode? "\x7b let a; switch (a) \x7b case a: let a; a; \x7d \x7d").getD []
  tree := program
  hasErrors := false

def blockPlace : Place := ⟨block, [(program, 0)]⟩

def switchPlace : Place := ⟨switch, (block, 2) :: blockPlace.above⟩

def switchBodyPlace : Place := ⟨switchBody, (switch, 2) :: switchPlace.above⟩

def casePlace : Place := ⟨switchCase, (switchBody, 1) :: switchBodyPlace.above⟩

def outerPlace : Place :=
  ⟨outerName, (declareOuter, 0) :: (letOuter, 1) :: (block, 1) :: blockPlace.above⟩

def innerPlace : Place :=
  ⟨innerName, (declareInner, 0) :: (letInner, 1) :: (switchCase, 3) :: casePlace.above⟩

/-- The name between the parentheses. -/
def subjectPlace : Place :=
  ⟨.leaf "identifier" 17 18, (subject, 1) :: (switch, 1) :: switchPlace.above⟩

/-- The name after the inner declaration. -/
def usePlace : Place :=
  ⟨.leaf "identifier" 37 38, (useInner, 0) :: (switchCase, 4) :: casePlace.above⟩

def outerVariable : Binding := ⟨"a", outerPlace, .declared "let" none⟩

theorem parts_block : blockPlace.parts =
    [⟨letOuter, (block, 1) :: blockPlace.above⟩, switchPlace] := rfl

theorem statements_block : blockPlace.parts.filterMap Source.exported? =
    [⟨letOuter, (block, 1) :: blockPlace.above⟩, switchPlace] := rfl

theorem declarations_block : source.declarations blockPlace = .ok [outerVariable] := by
  have hlet : source.statementBindings ⟨letOuter, (block, 1) :: blockPlace.above⟩ =
      .ok [outerVariable] := by cbv
  have hswitch : source.statementBindings switchPlace = .ok [] := rfl
  rw [Source.declarations, if_neg (by decide), if_neg (by decide), if_pos (by decide),
    Source.blockBindings, statements_block, Source.gather, List.mapM_cons, hlet, List.mapM_cons,
    hswitch]
  rfl

theorem switchPlace_mem : switchPlace ∈ source.places := by
  have hblock : blockPlace ∈ source.places :=
    Source.mem_places_of_getElem? (Place.self_mem_subtree _) rfl
  exact Source.mem_places_of_getElem? hblock rfl

theorem declaresOpenly_outer : blockPlace.DeclaresOpenly outerPlace := by
  refine .statement rfl (statements_block ▸ List.mem_cons_self) ?_
  exact .variable rfl ⟨_, List.mem_singleton_self _, rfl, _, rfl, .name (.inl rfl)⟩

theorem overlooks_inner : switchBodyPlace.Overlooks innerPlace := by
  have hcase : switchBodyPlace.parts = [casePlace] := rfl
  have hstatements : casePlace.parts.filterMap Source.exported? =
      [⟨.leaf "identifier" 27 28, (switchCase, 1) :: casePlace.above⟩,
        ⟨letInner, (switchCase, 3) :: casePlace.above⟩,
        ⟨useInner, (switchCase, 4) :: casePlace.above⟩] := rfl
  refine .case rfl (hcase ▸ List.mem_singleton_self _) (.inl rfl)
    (hstatements ▸ List.mem_cons_of_mem _ List.mem_cons_self) ?_
  exact .variable rfl ⟨_, List.mem_singleton_self _, rfl, _, rfl, .name (.inl rfl)⟩

theorem not_overlooks_outer : ¬blockPlace.Overlooks outerPlace := by
  intro h
  cases h with
  | labelled _ hmem hlabels _ =>
    have hlabel := hlabels.kind_eq
    simp only [parts_block, List.mem_cons, List.not_mem_nil, or_false] at hmem
    obtain rfl | rfl := hmem <;> exact absurd hlabel (by decide)
  | _ hk => exact absurd hk (by decide)

/-- The name between the parentheses is that of the block around. -/
theorem subject_refers_to_block :
    subjectPlace ∈ source.places ∧ blockPlace ∈ subjectPlace.ancestors ∧
      blockPlace.DeclaresLexically outerPlace ∧ source.textOf outerPlace = .ok "a" ∧
      ∃ found b, found.IsScopeWithin subjectPlace blockPlace ∧
        source.RefersTo subjectPlace "a" found b := by
  have hplace : subjectPlace ∈ source.places :=
    Source.mem_places_of_getElem? (Source.mem_places_of_getElem? switchPlace_mem rfl) rfl
  have hblock : blockPlace ∈ subjectPlace.ancestors := by
    simp [Place.ancestors, Place.ancestorsOf, subjectPlace, switchPlace, blockPlace]
  have hdeclares : blockPlace.DeclaresLexically outerPlace := .inl declaresOpenly_outer
  have htext : source.textOf outerPlace = .ok "a" := by cbv
  refine ⟨hplace, hblock, hdeclares, htext, ?_⟩
  apply (Source.lexical_declaration_shadows_iff hplace hdeclares htext).1.mpr
  refine ⟨blockPlace, ⟨hblock, by decide, Place.self_mem_subtree _⟩,
    .inl ⟨rfl, not_overlooks_outer⟩, ?_⟩
  intro p hp
  have hscopes : subjectPlace.ancestors.filter Place.isScope = [blockPlace, .root program] := by cbv
  have hmem := List.mem_filter.mpr ⟨hp.1, hp.2.1⟩
  simp only [hscopes, List.mem_cons, List.not_mem_nil, or_false] at hmem
  obtain rfl | rfl := hmem
  · exact Source.exists_declarations_iff.mp ⟨_, declarations_block⟩
  · exact absurd hp.2.2 (Place.not_mem_subtree_of_mem_ancestors (List.mem_singleton_self _))

theorem lookup_use : source.lookup usePlace "a" = .ok (some outerVariable) := by
  have hscopes : usePlace.ancestors.filter Place.isScope =
      [switchBodyPlace, blockPlace, .root program] := by cbv
  have hswitch : source.declarations switchBodyPlace = .ok [] := rfl
  rw [Source.lookup, hscopes, Source.lookupIn_eq_ok_some_iff]
  refine ⟨[switchBodyPlace], blockPlace, [.root program], rfl, ?_, _, declarations_block, by cbv⟩
  intro q hq
  rw [List.mem_singleton.mp hq]
  exact ⟨[], hswitch, by simp⟩

/-- The name after the inner declaration is that of the outer one, which is not in the switch. -/
theorem use_refers_outside_switch :
    usePlace ∈ source.places ∧ switchBodyPlace ∈ usePlace.ancestors ∧
      switchBodyPlace.DeclaresLexically innerPlace ∧ source.textOf innerPlace = .ok "a" ∧
      source.lookup usePlace "a" = .ok (some outerVariable) ∧
      outerVariable.place ∉ switchBodyPlace.subtree := by
  have hcase : casePlace ∈ source.places :=
    Source.mem_places_of_getElem? (Source.mem_places_of_getElem? switchPlace_mem rfl) rfl
  have hplace : usePlace ∈ source.places :=
    Source.mem_places_of_getElem? (Source.mem_places_of_getElem? hcase rfl) rfl
  refine ⟨hplace, ?_, .inr overlooks_inner, by cbv, lookup_use, ?_⟩
  · simp [Place.ancestors, Place.ancestorsOf, usePlace, casePlace, switchBodyPlace]
  · exact Place.not_mem_subtree_of_path (by cbv)

end CaseVariable

end MessageExtraction
