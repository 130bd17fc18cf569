import MessageExtraction.Proofs.Scope.Resolution

/-!
Declarations with `var`, which belong to the whole function or program around them. Such a name
hides all outer ones there, unless it is declared in the head of a loop over a collection, or below
a body that is no block.
-/

namespace MessageExtraction

namespace Place

variable {owner body x : Place}

/-- What a function or a program runs: the body of the one, all of the other. -/
inductive HasBody (owner : Place) : Place → Prop
  | program : owner.kind = "program" → HasBody owner owner
  | function {body : Place} :
      owner.isFunction = true → owner.field? "body" = some body → body.isFunction = false →
      HasBody owner body

/-- A statement below, or the head of a loop with a counter, declares a variable. -/
def HasVariable (body x : Place) : Prop :=
  ∃ d, body.Opens d ∧ d.kind = "variable_declaration" ∧ d.DeclarationBinds x

/-- The head of a loop over a collection below declares a variable. -/
def HasItem (body x : Place) : Prop :=
  ∃ loop, body.Opens loop ∧ loop.kind = "for_in_statement" ∧
    (∃ keyword ∈ loop.children, keyword.kind = "var") ∧
    ∃ left, loop.field? "left" = some left ∧ left.Binds x

/-- A function or a program declares a variable with `var`, outside of the functions in it. -/
def DeclaresVariable (owner x : Place) : Prop :=
  ∃ body, owner.HasBody body ∧ (body.HasVariable x ∨ body.HasItem x)

/-- The variables that the table of a function or of a program takes up. -/
def Hoists (owner x : Place) : Prop :=
  ∃ body, owner.HasBody body ∧ (owner.kind = "program" ∨ body.kind = "statement_block") ∧
    body.HasVariable x

theorem HasBody.isScope (h : owner.HasBody body) : owner.isScope = true := by
  cases h with
  | program hk =>
    rw [Place.isScope, hk]
    rfl
  | function hf _ _ =>
    rw [isFunction, List.contains_iff_mem] at hf
    rw [Place.isScope, List.contains_iff_mem, scopeKinds]
    exact List.mem_append_left _ (List.mem_append_left _ hf)

theorem HasVariable.exists_mem_hoisted (h : body.HasVariable x)
    (hk : body.kind ≠ "variable_declaration") :
    ∃ d ∈ body.hoisted, ∃ k, d.DeclarationNames x k := by
  obtain ⟨d, hway, hd, hx⟩ := h
  refine ⟨d, ?_, hx.exists_names⟩
  cases hway with
  | refl _ => exact absurd hd hk
  | child hc hf hway => exact hway.mem_hoisted hc hf hd

theorem DeclarationBinds.exists_carries {declaration : Place} (h : declaration.DeclarationBinds x) :
    ∃ d ∈ declaration.children, d.kind = "variable_declarator" ∧ d.Carries x := by
  obtain ⟨d, hd, hk, pattern, hpattern, hx⟩ := h
  exact ⟨d, mem_children_of_mem_parts hd, hk,
    pattern, mem_children_of_field? hpattern, hx, not_binds_of_kind hk rfl⟩

/-- A variable is carried by the head of a loop, or by a declarator after `var`. -/
theorem DeclaresVariable.exists_carries (h : owner.DeclaresVariable x) : ∃ e : Place, e.Carries x ∧
    (e.kind = "for_in_statement" ∨ e.kind = "variable_declarator" ∧
      ∃ d : Place, e ∈ d.children ∧ d.kind = "variable_declaration") := by
  obtain ⟨body, -, ⟨d, -, hk, hx⟩ | ⟨loop, -, hk, -, left, hleft, hx⟩⟩ := h
  · obtain ⟨e, he, hek, hcarries⟩ := hx.exists_carries
    exact ⟨e, hcarries, .inr ⟨hek, d, he, hk⟩⟩
  · exact ⟨loop, ⟨left, mem_children_of_field? hleft, hx, not_binds_of_kind hk rfl⟩, .inl hk⟩

end Place

namespace Source

open Place

variable {s : Source} {owner r x : Place} {n : Text}

theorem exists_introduces_of_hoists (h : owner.Hoists x) : ∃ k, s.Introduces owner x k := by
  obtain ⟨body, hbody, hblock, hx⟩ := h
  cases hbody with
  | program hk =>
    obtain ⟨d, hd, k, hx⟩ := hx.exists_mem_hoisted (by simp [hk])
    exact ⟨k, .programVariable hk hd hx⟩
  | function hf hbody _ =>
    have hblock := hblock.resolve_left (kind_of_isFunction hf).1
    obtain ⟨d, hd, k, hx⟩ := hx.exists_mem_hoisted (by simp [hblock])
    exact ⟨k, .bodyVariable hf hbody hblock hd hx⟩

theorem ImportNames.exists_carries {statement : Place} {k : BindingKind}
    (h : s.ImportNames statement x k) (hx : x.Binds x) :
    ∃ e : Place, e.Carries x ∧ e.kind ∈ ["import_clause", "namespace_import", "import_specifier"] := by
  obtain ⟨source, clause, -, hclause, module, -, part, hpart, hnames⟩ := h
  have hk := (mem_children_of_childOfKind? hclause).2
  cases hnames with
  | default _ =>
    exact ⟨clause, ⟨x, mem_children_of_mem_parts hpart, hx, not_binds_of_kind hk rfl⟩, by simp [hk]⟩
  | whole hk hidentifier =>
    have hchild := (mem_children_of_childOfKind? hidentifier).1
    exact ⟨part, ⟨x, hchild, hx, not_binds_of_kind hk rfl⟩, by simp [hk]⟩
  | @named specifier _ _ _ _ hnames =>
    obtain ⟨hk, name, hname, hlocal, -⟩ := hnames
    have hchild : x ∈ specifier.children := by
      rw [hlocal]
      cases halias : specifier.field? "alias" with
      | none => exact mem_children_of_field? hname
      | some local' => exact mem_children_of_field? halias
    exact ⟨specifier, ⟨x, hchild, hx, not_binds_of_kind hk rfl⟩, by simp [hk]⟩

/-- What a statement declares in its block is carried by no head of a loop, and by a declarator only
if that is one of the statement. -/
theorem StatementNames.exists_carries {statement : Place} {k : BindingKind}
    (h : s.StatementNames statement x k) (hx : x.Binds x) : ∃ e : Place, e.Carries x ∧
    e.kind ≠ "for_in_statement" ∧ (e.kind = "variable_declarator" →
      e ∈ statement.children ∧ statement.kind = "lexical_declaration") := by
  cases h with
  | «import» _ hnames =>
    obtain ⟨e, he, hk⟩ := hnames.exists_carries hx
    simp only [List.mem_cons, List.not_mem_nil, or_false] at hk
    refine ⟨e, he, ?_⟩
    obtain hk | hk | hk := hk <;> simp [hk]
  | «variable» hk hnames =>
    obtain ⟨e, he, hek, hcarries⟩ := hnames.binds.exists_carries
    exact ⟨e, hcarries, by simp [hek], fun _ ↦ ⟨he, hk⟩⟩
  | function hk hname | «class» hk hname =>
    have hnot : ¬statement.Binds x :=
      hk.elim (not_binds_of_kind · rfl) (not_binds_of_kind · rfl)
    refine ⟨statement, ⟨x, mem_children_of_field? hname, hx, hnot⟩, ?_⟩
    obtain hk | hk := hk <;> simp [hk]

/-- Of the variables of a function or a program its table has those that are hoisted. -/
theorem Introduces.hoists {k : BindingKind} (h : s.Introduces owner x k)
    (hx : owner.DeclaresVariable x) : owner.Hoists x := by
  obtain ⟨e, he, hkind⟩ := hx.exists_carries
  have hself : x.Binds x := by
    obtain ⟨p, -, hp, -⟩ := he
    exact hp.self
  obtain ⟨body, hbody, -⟩ := hx
  -- A function carries its parameters and its own name, and is no loop and no declarator.
  have howner (hf : owner.isFunction = true) (hcarries : owner.Carries x) : False := by
    obtain rfl := hcarries.unique he
    obtain hk | ⟨hk, -⟩ := hkind
    · rw [isFunction_eq_false_of_kind hk rfl] at hf
      cases hf
    · rw [isFunction_eq_false_of_kind hk rfl] at hf
      cases hf
  have hnot (hf : owner.isFunction = true) : ¬owner.Binds x := by
    intro hbinds
    rw [hbinds.isFunction_eq_false] at hf
    cases hf
  cases h with
  | parameter hf hq hbinds =>
    obtain hq | ⟨-, hq⟩ := Option.or_eq_some_iff.mp hq
    · exact (howner hf ⟨_, mem_children_of_field? hq, hbinds, hnot hf⟩).elim
    · exact (howner hf ⟨_, mem_children_of_field? hq, hbinds, hnot hf⟩).elim
  | ownName hf _ hname =>
    exact (howner hf ⟨x, mem_children_of_field? hname, hself, hnot hf⟩).elim
  | bodyVariable hf hbody hk hd hnames =>
    exact ⟨_, .function hf hbody (isFunction_eq_false_of_kind hk rfl), .inr hk,
      _, opens_of_mem_hoisted hd, (mem_hoisted_iff.mp hd).2, hnames.binds⟩
  | programVariable hk hd hnames =>
    exact ⟨owner, .program hk, .inl hk,
      _, opens_of_mem_hoisted hd, (mem_hoisted_iff.mp hd).2, hnames.binds⟩
  | statement _ hnames =>
    obtain ⟨e', he', hloop, hdeclarator⟩ := hnames.exists_carries hself
    obtain rfl := he'.unique he
    obtain hk | ⟨hk, d, hd, hdk⟩ := hkind
    · exact absurd hk hloop
    · obtain ⟨hchild, hlexical⟩ := hdeclarator hk
      obtain rfl := eq_of_mem_children hchild hd
      simp [hlexical] at hdk
  | loopVariable hk | item hk | caught hk =>
    cases hbody with
    | program hk' => simp [hk] at hk'
    | function hf =>
      rw [isFunction_eq_false_of_kind hk rfl] at hf
      cases hf

/-- A variable of a function or a program with no nearer declaration of the name refers to a binding
of it, iff it is hoisted, or the name is in the table by other means, and no table is unreadable on
the way there. The table has the variable itself iff it is hoisted. -/
theorem hoisted_declaration_shadows_iff (hr : r ∈ s.places) (howner : owner ∈ r.ancestors)
    (hx : owner.DeclaresVariable x) (hn : s.textOf x = .ok n)
    (hnearer : ∀ q : Place, q.IsScopeWithin r owner → q ≠ owner → ¬s.Names q n) :
    ((∃ b, s.RefersTo r n owner b) ↔
      (owner.Hoists x ∨ s.Names owner n) ∧
        ∀ q : Place, q.IsScopeWithin r owner → s.Readable q) ∧
    (owner.Hoists x ↔ ∃ k, s.Introduces owner x k) := by
  refine ⟨?_, exists_introduces_of_hoists, fun ⟨_, h⟩ ↦ h.hoists hx⟩
  obtain ⟨body, hbody, -⟩ := hx
  have hself : owner.IsScopeWithin r owner := ⟨howner, hbody.isScope, self_mem_subtree owner⟩
  -- Only the owner itself can be the scope where the name is found.
  have heq {q : Place} (hq : q.IsScopeWithin r owner) (hnames : s.Names q n) : q = owner := by
    by_contra hne
    exact hnearer q hq hne hnames
  constructor
  · intro ⟨b, hb⟩
    obtain ⟨q, hq, hnames, hreadable⟩ := (exists_refersTo_iff hr).mp ⟨owner, b, hself, hb⟩
    obtain rfl := heq hq hnames
    exact ⟨.inr hnames, hreadable⟩
  · intro ⟨hnames, hreadable⟩
    have hnames : s.Names owner n := by
      obtain hhoists | hnames := hnames
      · obtain ⟨k, hk⟩ := exists_introduces_of_hoists (s := s) hhoists
        exact ⟨x, k, hk, hn⟩
      · exact hnames
    obtain ⟨found, b, hfound, hb⟩ :=
      (exists_refersTo_iff hr).mpr ⟨owner, hself, hnames, hreadable⟩
    obtain rfl := heq hfound (hb.names hr)
    exact ⟨b, hb⟩

end Source

namespace LoopVariable

def itemPlace : Place := ⟨itemName, (loop, 3) :: loopPlace.above⟩

def useOfItem : Place :=
  ⟨.leaf "identifier" 48 49, (useItem, 0) :: (loopBody, 2) :: loopBodyPlace.above⟩

def useOfInner : Place :=
  ⟨.leaf "identifier" 51 52, (useInner, 0) :: (loopBody, 3) :: loopBodyPlace.above⟩

theorem loopBodyPlace_mem : loopBodyPlace ∈ source.places :=
  Source.mem_places_of_getElem? loopPlace_mem rfl

/-- The scopes of the function around a place in the body of the loop. -/
theorem eq_or_mem_of_isScopeWithin {r q : Place}
    (hscopes : r.ancestors.filter Place.isScope =
      [loopBodyPlace, loopPlace, bodyPlace] ++ [functionPlace, .root program])
    (hq : q.IsScopeWithin r functionPlace) :
    q = functionPlace ∨ q ∈ [loopBodyPlace, loopPlace, bodyPlace] := by
  have hmem := List.mem_filter.mpr ⟨hq.1, hq.2.1⟩
  rw [hscopes, List.mem_append] at hmem
  obtain hmem | hmem := hmem
  · exact .inr hmem
  · simp only [List.mem_cons, List.not_mem_nil, or_false] at hmem
    obtain rfl | rfl := hmem
    · exact .inl rfl
    · exact absurd hq.2.2 (Place.not_mem_subtree_of_mem_ancestors (List.mem_singleton_self _))

theorem hasBody_function : functionPlace.HasBody bodyPlace := .function rfl rfl rfl

theorem opens_loop : bodyPlace.Opens loopPlace :=
  .of_child (Place.mem_children_iff.mpr ⟨1, rfl, rfl⟩) rfl

theorem hasVariable_inner : bodyPlace.HasVariable innerPlace := by
  have hbody : loopPlace.Opens loopBodyPlace :=
    .of_child (Place.mem_children_iff.mpr ⟨7, rfl, rfl⟩) rfl
  have hdeclaration : loopBodyPlace.Opens ⟨varInner, (loopBody, 1) :: loopBodyPlace.above⟩ :=
    .of_child (Place.mem_children_iff.mpr ⟨1, rfl, rfl⟩) rfl
  refine ⟨_, opens_loop.trans (hbody.trans hdeclaration), rfl, ?_⟩
  exact ⟨_, List.mem_singleton_self _, rfl, _, rfl, .name (.inl rfl)⟩

theorem hasItem_item : bodyPlace.HasItem itemPlace := by
  have hkeyword : ⟨.token "var" 27 30, (loop, 2) :: loopPlace.above⟩ ∈
      loopPlace.children := Place.mem_children_iff.mpr ⟨2, rfl, rfl⟩
  exact ⟨loopPlace, opens_loop, rfl, ⟨_, hkeyword, rfl⟩, _, rfl, .name (.inl rfl)⟩

/-- The variable of the statement in the loop is one of the function. -/
theorem inner_refers_to_function :
    useOfInner ∈ source.places ∧ functionPlace ∈ useOfInner.ancestors ∧
      functionPlace.DeclaresVariable innerPlace ∧ source.textOf innerPlace = .ok "b" ∧
      (∀ q : Place, q.IsScopeWithin useOfInner functionPlace → q ≠ functionPlace →
        ¬source.Names q "b") ∧
      ∃ b, source.RefersTo useOfInner "b" functionPlace b := by
  have hplace : useOfInner ∈ source.places :=
    Source.mem_places_of_getElem? (Source.mem_places_of_getElem? loopBodyPlace_mem rfl) rfl
  have hscopes : useOfInner.ancestors.filter Place.isScope =
      [loopBodyPlace, loopPlace, bodyPlace] ++ [functionPlace, .root program] := by cbv
  have hmem : functionPlace ∈ useOfInner.ancestors.filter Place.isScope := by simp [hscopes]
  have haround := (List.mem_filter.mp hmem).1
  have hdeclares : functionPlace.DeclaresVariable innerPlace :=
    ⟨bodyPlace, hasBody_function, .inl hasVariable_inner⟩
  have hnearer : ∀ q : Place, q.IsScopeWithin useOfInner functionPlace → q ≠ functionPlace →
      ¬source.Names q "b" := by
    intro q hq hne
    have hmem := (eq_or_mem_of_isScopeWithin hscopes hq).resolve_left hne
    exact (none_named_of_mem hmem "b").2
  refine ⟨hplace, haround, hdeclares, text_innerPlace, hnearer, ?_⟩
  apply (Source.hoisted_declaration_shadows_iff
    hplace haround hdeclares text_innerPlace hnearer).1.mpr
  refine ⟨.inl ⟨bodyPlace, hasBody_function, .inr rfl, hasVariable_inner⟩, ?_⟩
  intro q hq
  obtain rfl | hmem := eq_or_mem_of_isScopeWithin hscopes hq
  · exact readable_function
  · exact (none_named_of_mem hmem "b").1

/-- The variable in the head of the loop is not one of the function: its name is that of an outer
variable. -/
theorem item_refers_outside_function :
    useOfItem ∈ source.places ∧ functionPlace ∈ useOfItem.ancestors ∧
      functionPlace.DeclaresVariable itemPlace ∧ source.textOf itemPlace = .ok "a" ∧
      (∀ q : Place, q.IsScopeWithin useOfItem functionPlace → q ≠ functionPlace →
        ¬source.Names q "a") ∧
      source.lookup useOfItem "a" = .ok (some outerVariable) ∧
      outerVariable.place ∉ functionPlace.subtree := by
  have hplace : useOfItem ∈ source.places :=
    Source.mem_places_of_getElem? (Source.mem_places_of_getElem? loopBodyPlace_mem rfl) rfl
  have hscopes : useOfItem.ancestors.filter Place.isScope =
      [loopBodyPlace, loopPlace, bodyPlace] ++ [functionPlace, .root program] := by cbv
  have hmem : functionPlace ∈ useOfItem.ancestors.filter Place.isScope := by simp [hscopes]
  refine ⟨hplace, (List.mem_filter.mp hmem).1, ⟨bodyPlace, hasBody_function, .inr hasItem_item⟩,
    by cbv, ?_, lookup_of_ne hscopes (by simp) (by decide) (by cbv), ?_⟩
  · intro q hq hne
    have hmem := (eq_or_mem_of_isScopeWithin hscopes hq).resolve_left hne
    exact (none_named_of_mem hmem "a").2
  · exact Place.not_mem_subtree_of_path (by cbv)

end LoopVariable

end MessageExtraction
