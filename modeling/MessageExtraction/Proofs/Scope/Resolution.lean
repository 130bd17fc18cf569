import Mathlib
import MessageExtraction.Proofs.Scope.Tables
import MessageExtraction.Scope.Lookup

/-!
Where the binding comes from that a name refers to: from the table of the nearest scope that
introduces the name, and in the source from a place of that scope that no function hides.
-/

namespace MessageExtraction

namespace BindingKind

def isImport : BindingKind → Bool
  | .imported _ _ | .wholeModule _ => true
  | _ => false

end BindingKind

theorem Binding.kind_of_value? {b : Binding} {value : Place} (h : b.value? = some value) :
    ∃ keyword, b.kind = .declared keyword (some value) := by
  obtain ⟨_, _, k⟩ := b
  cases k with
  | declared keyword _ => exact ⟨keyword, congrArg _ h⟩
  | _ => cases h

namespace Place

variable {p q x : Place}

theorem isFunction_eq_false_of_kind {kind : String} (h : p.kind = kind)
    (hk : functionKinds.contains kind = false) : p.isFunction = false := by
  rw [isFunction, h, hk]

theorem mem_children_of_childOfKind? {kind : String} (h : p.childOfKind? kind = some q) :
    q ∈ p.children ∧ q.kind = kind := by
  rw [childOfKind?] at h
  have hk := List.find?_some h
  exact ⟨List.mem_of_find?_eq_some h, beq_iff_eq.mp hk⟩

/-- A declarator gives a name its initial value. -/
def Initializes (d x value : Place) : Prop :=
  d.kind = "variable_declarator" ∧ d.field? "name" = some x ∧ d.field? "value" = some value

/-- A scope around a place that lies in another place, or is it. -/
def IsScopeWithin (q r p : Place) : Prop := q ∈ r.ancestors ∧ q.isScope = true ∧ q ∈ p.subtree

namespace IsScopeWithin

variable {r t : Place}

theorem trans (h : q.IsScopeWithin r p) (ht : t.IsScopeWithin r q) : t.IsScopeWithin r p :=
  ⟨ht.1, ht.2.1, mem_subtree_trans h.2.2 ht.2.2⟩

theorem sizeOf_lt (h : q.IsScopeWithin r p) (hne : q ≠ p) : sizeOf q.node < sizeOf p.node := by
  obtain heq | ⟨c, hc, hq⟩ := mem_subtree_iff.mp h.2.2
  · exact absurd heq hne
  · have := sizeOf_node_lt hc
    have := sizeOf_le_of_mem_subtree hq
    omega

end IsScopeWithin

theorem DeclaratorNames.exposes {keyword : String} {k : BindingKind}
    (h : DeclaratorNames keyword q x k) (hq : q ∈ p.children) : p.Exposes x := by
  have hopen (hk : q.kind = "variable_declarator") : p.Opens q :=
    .of_child hq (isFunction_eq_false_of_kind hk rfl)
  cases h with
  | alone hk hx _ => exact .of_child (hopen hk) (mem_children_of_field? hx)
  | pattern hk hname _ hx => exact (hopen hk).exposes (hx.exposes (mem_children_of_field? hname))

theorem DeclarationNames.exposes {k : BindingKind} (h : q.DeclarationNames x k) : q.Exposes x := by
  obtain ⟨d, hd, hx⟩ := h
  exact hx.exposes (mem_children_of_mem_parts hd)

/-- A statement of a scope is in it in the open, also when it is exported. -/
theorem Holds.exists_opens {scope statement : Place} (h : scope.Holds statement) :
    ∃ q, scope.Opens q ∧ statement ∈ q.children := by
  obtain ⟨q, hq, hstatement⟩ := List.mem_filterMap.mp h.2
  have hchild := mem_children_of_mem_parts hq
  rw [Source.exported?] at hstatement
  split at hstatement
  · rename_i hk
    exact ⟨q, .of_child hchild (isFunction_eq_false_of_kind hk rfl),
      mem_children_of_field? hstatement⟩
  · cases hstatement
    exact ⟨scope, .refl scope, hchild⟩

end Place

namespace Source

open Place

variable {s : Source} {scope r x : Place} {k : BindingKind} {b : Binding} {n : Text}

theorem SpecifierNames.exposes {module : Text} {specifier part : Place}
    (h : s.SpecifierNames module specifier x k) (hspecifier : specifier ∈ part.parts) :
    part.Exposes x := by
  obtain ⟨hk, name, hname, rfl, -⟩ := h
  have hopen : part.Opens specifier :=
    .of_child (mem_children_of_mem_parts hspecifier) (isFunction_eq_false_of_kind hk rfl)
  cases halias : specifier.field? "alias" with
  | none => exact .of_child hopen (mem_children_of_field? hname)
  | some local' => exact .of_child hopen (mem_children_of_field? halias)

theorem ClauseNames.exposes {module : Text} {part clause : Place}
    (h : s.ClauseNames module part x k) (hpart : part ∈ clause.parts) : clause.Exposes x := by
  have hchild := mem_children_of_mem_parts hpart
  cases h with
  | default hk => exact .of_child (.refl clause) hchild
  | whole hk hx =>
    exact .of_child (.of_child hchild (isFunction_eq_false_of_kind hk rfl))
      (mem_children_of_childOfKind? hx).1
  | named hk hspecifier hx =>
    exact (Opens.of_child hchild (isFunction_eq_false_of_kind hk rfl)).exposes
      (hx.exposes hspecifier)

theorem ImportNames.exposes {statement : Place} (h : s.ImportNames statement x k) :
    statement.Exposes x := by
  obtain ⟨source, clause, -, hclause, module, -, part, hpart, hx⟩ := h
  obtain ⟨hchild, hk⟩ := mem_children_of_childOfKind? hclause
  exact (Opens.of_child hchild (isFunction_eq_false_of_kind hk rfl)).exposes (hx.exposes hpart)

theorem StatementNames.exposes {statement q : Place} (h : s.StatementNames statement x k)
    (hq : statement ∈ q.children) : q.Exposes x := by
  cases h with
  | «import» hk hx =>
    exact (Opens.of_child hq (isFunction_eq_false_of_kind hk rfl)).exposes hx.exposes
  | «variable» hk hx =>
    exact (Opens.of_child hq (isFunction_eq_false_of_kind hk rfl)).exposes hx.exposes
  | function hk hx => exact ⟨q, .refl q, .inr ⟨statement, hq, hx⟩⟩
  | «class» hk hx =>
    have hf : statement.isFunction = false :=
      hk.elim (isFunction_eq_false_of_kind · rfl) (isFunction_eq_false_of_kind · rfl)
    exact .of_child (.of_child hq hf) (mem_children_of_field? hx)

theorem Introduces.exposes (h : s.Introduces scope x k) : scope.Exposes x := by
  cases h with
  | parameter _ hq hx =>
    obtain hq | ⟨-, hq⟩ := Option.or_eq_some_iff.mp hq
    · exact hx.exposes (mem_children_of_field? hq)
    · exact hx.exposes (mem_children_of_field? hq)
  | ownName _ _ hx => exact .of_child (.refl scope) (mem_children_of_field? hx)
  | bodyVariable _ hbody hk hd hx =>
    have hopen : scope.Opens _ :=
      .of_child (mem_children_of_field? hbody) (isFunction_eq_false_of_kind hk rfl)
    exact (hopen.trans (opens_of_mem_hoisted hd)).exposes hx.exposes
  | programVariable _ hd hx => exact (opens_of_mem_hoisted hd).exposes hx.exposes
  | statement hstatement hx =>
    obtain ⟨q, hq, hchild⟩ := hstatement.exists_opens
    exact hq.exposes (hx.exposes hchild)
  | loopVariable _ hd hk hx =>
    exact (Opens.of_child (mem_children_of_field? hd) (isFunction_eq_false_of_kind hk rfl)).exposes
      hx.exposes
  | item _ hleft _ hx => exact hx.exposes (mem_children_of_field? hleft)
  | caught _ hq hx => exact hx.exposes (mem_children_of_field? hq)

theorem ImportNames.isImport {statement : Place} (h : s.ImportNames statement x k) :
    k.isImport = true := by
  obtain ⟨_, _, _, _, module, _, part, _, hx⟩ := h
  cases hx with
  | default _ => rfl
  | whole _ _ => rfl
  | named _ _ hx =>
    obtain ⟨_, _, _, _, _, _, rfl⟩ := hx
    rfl

/-- Only an import statement in a scope makes a name of it an import. -/
theorem Introduces.exists_import (h : s.Introduces scope x k) (hk : k.isImport = true) :
    ∃ statement, scope.Holds statement ∧ statement.kind = "import_statement" ∧
      s.ImportNames statement x k := by
  have hdeclared {declaration : Place} (hx : declaration.DeclarationNames x k) : False := by
    obtain ⟨d, _, hx⟩ := hx
    cases hx <;> cases hk
  cases h with
  | bodyVariable _ _ _ _ hx => exact (hdeclared hx).elim
  | programVariable _ _ hx => exact (hdeclared hx).elim
  | loopVariable _ _ _ hx => exact (hdeclared hx).elim
  | statement hstatement hx =>
    cases hx with
    | «import» himport hx => exact ⟨_, hstatement, himport, hx⟩
    | «variable» _ hx => exact (hdeclared hx).elim
    | function => cases hk
    | «class» => cases hk
  | parameter | ownName | item | caught => cases hk

theorem exists_initializes {declaration value : Place} {keyword : String}
    (h : declaration.DeclarationNames x k) (hk : k = .declared keyword (some value)) :
    ∃ d ∈ declaration.subtree, d.Initializes x value := by
  obtain ⟨d, hd, hx⟩ := h
  refine ⟨d, mem_subtree_of_mem_parts hd, ?_⟩
  cases hx with
  | alone hkind hname _ => exact ⟨hkind, hname, (BindingKind.declared.inj hk).2⟩
  | pattern => cases hk

/-- The initial value of a name is that of the declarator which names it. -/
theorem Introduces.exists_initializes {value : Place} {keyword : String}
    (h : s.Introduces scope x k) (hk : k = .declared keyword (some value)) :
    ∃ d ∈ scope.subtree, d.Initializes x value := by
  have hbelow {declaration : Place} (hdeclaration : declaration ∈ scope.subtree)
      (hx : declaration.DeclarationNames x k) : ∃ d ∈ scope.subtree, d.Initializes x value := by
    obtain ⟨d, hd, hx⟩ := Source.exists_initializes hx hk
    exact ⟨d, mem_subtree_trans hdeclaration hd, hx⟩
  cases h with
  | bodyVariable _ hbody _ hd hx =>
    have hbody := mem_subtree_of_field? hbody
    exact hbelow (mem_subtree_trans hbody (opens_of_mem_hoisted hd).mem_subtree) hx
  | programVariable _ hd hx => exact hbelow (opens_of_mem_hoisted hd).mem_subtree hx
  | loopVariable _ hd _ hx => exact hbelow (mem_subtree_of_field? hd) hx
  | statement hstatement hx =>
    obtain ⟨q, hq, hchild⟩ := hstatement.exists_opens
    cases hx with
    | «import» _ hx =>
      have himport := hx.isImport
      rw [hk] at himport
      cases himport
    | «variable» _ hx =>
      exact hbelow (mem_subtree_trans hq.mem_subtree (mem_subtree_of_mem_children hchild)) hx
    | function => cases hk
    | «class» => cases hk
  | parameter | ownName | item | caught => cases hk

/-- A scope introduces a name of a given spelling. -/
def Names (s : Source) (scope : Place) (n : Text) : Prop :=
  ∃ x k, s.Introduces scope x k ∧ s.textOf x = .ok n

/-- The table of a scope holds a binding. -/
def Owns (s : Source) (scope : Place) (b : Binding) : Prop :=
  ∃ bs, s.declarations scope = .ok bs ∧ b ∈ bs

theorem names_iff {bs : List Binding} (h : s.declarations scope = .ok bs) :
    s.Names scope n ↔ ∃ c ∈ bs, c.name = n := by
  constructor
  · intro ⟨x, k, hx, hn⟩
    exact ⟨⟨n, x, k⟩, (mem_declarations_iff h).mpr ⟨hx, hn⟩, rfl⟩
  · intro ⟨c, hc, hn⟩
    obtain ⟨hx, ht⟩ := (mem_declarations_iff h).mp hc
    exact ⟨c.place, c.kind, hx, hn ▸ ht⟩

namespace Owns

theorem introduces (h : s.Owns scope b) :
    s.Introduces scope b.place b.kind ∧ s.textOf b.place = .ok b.name := by
  obtain ⟨bs, hbs, hb⟩ := h
  exact (mem_declarations_iff hbs).mp hb

theorem names (h : s.Owns scope b) : s.Names scope b.name :=
  ⟨b.place, b.kind, h.introduces⟩

end Owns

theorem find?_name_eq_none_iff {bs : List Binding} :
    bs.find? (·.name == n) = none ↔ ∀ c ∈ bs, c.name ≠ n := by
  simp [List.find?_eq_none]

theorem exists_none_named_iff : (∃ bs, s.declarations scope = .ok bs ∧ ∀ c ∈ bs, c.name ≠ n) ↔
    s.Readable scope ∧ ¬s.Names scope n := by
  rw [← exists_declarations_iff]
  constructor
  · intro ⟨bs, hbs, hnone⟩
    refine ⟨⟨bs, hbs⟩, ?_⟩
    intro hnames
    obtain ⟨c, hc, hn⟩ := (names_iff hbs).mp hnames
    exact hnone c hc hn
  · intro ⟨⟨bs, hbs⟩, hnames⟩
    refine ⟨bs, hbs, ?_⟩
    intro c hc hn
    exact hnames ((names_iff hbs).mpr ⟨c, hc, hn⟩)

theorem exists_find?_name (hscope : s.Readable scope) (hn : s.Names scope n) :
    ∃ b bs, s.declarations scope = .ok bs ∧ bs.find? (·.name == n) = some b := by
  obtain ⟨bs, hbs⟩ := exists_declarations_iff.mpr hscope
  cases hfind : bs.find? (·.name == n) with
  | some b => exact ⟨b, bs, hbs, hfind⟩
  | none =>
    obtain ⟨c, hc, hname⟩ := (names_iff hbs).mp hn
    exact absurd hname (find?_name_eq_none_iff.mp hfind c hc)

/-- The nearest scope around a place that has a name in its table, and the binding found there. -/
structure Finds (s : Source) (r scope : Place) (n : Text) (b : Binding) : Prop where
  around : scope ∈ r.ancestors
  isScope : scope.isScope = true
  first : ∃ bs, s.declarations scope = .ok bs ∧ bs.find? (·.name == n) = some b
  nearer : ∀ q : Place, q.IsScopeWithin r scope → q ≠ scope →
    ∃ bs, s.declarations q = .ok bs ∧ ∀ c ∈ bs, c.name ≠ n

theorem lookupIn_eq_ok_some_iff {scopes : List Place} : s.lookupIn n scopes = .ok (some b) ↔
    ∃ nearer scope outer, scopes = nearer ++ scope :: outer ∧
      (∀ q ∈ nearer, ∃ bs, s.declarations q = .ok bs ∧ ∀ c ∈ bs, c.name ≠ n) ∧
      ∃ bs, s.declarations scope = .ok bs ∧ bs.find? (·.name == n) = some b := by
  induction scopes with
  | nil => simp [lookupIn]
  | cons scope outer ih =>
    rw [lookupIn, bind_eq_ok]
    constructor
    · intro ⟨bs, hbs, h⟩
      split at h
      · rename_i c hc
        cases h
        exact ⟨[], scope, outer, rfl, by simp, bs, hbs, hc⟩
      · rename_i hnone
        obtain ⟨nearer, found, rest, rfl, hnearer, hfound⟩ := ih.mp h
        refine ⟨scope :: nearer, found, rest, rfl, ?_, hfound⟩
        exact List.forall_mem_cons.mpr ⟨⟨bs, hbs, find?_name_eq_none_iff.mp hnone⟩, hnearer⟩
    · intro ⟨nearer, found, rest, hsplit, hnearer, bs, hbs, hb⟩
      cases nearer with
      | nil =>
        cases hsplit
        refine ⟨bs, hbs, ?_⟩
        simp only [hb]
        rfl
      | cons q nearer =>
        obtain ⟨rfl, rfl⟩ := List.cons.inj hsplit
        obtain ⟨⟨cs, hcs, hnone⟩, hnearer⟩ := List.forall_mem_cons.mp hnearer
        refine ⟨cs, hcs, ?_⟩
        simp only [find?_name_eq_none_iff.mpr hnone]
        exact ih.mpr ⟨nearer, found, rest, rfl, hnearer, bs, hbs, hb⟩

/-- Of the scopes around a place, those before one of them are the ones that lie in it. -/
theorem mem_nearer_iff {nearer outer : List Place} (hr : r ∈ s.places)
    (h : r.ancestors.filter isScope = nearer ++ scope :: outer) {q : Place} :
    q ∈ nearer ↔ q.IsScopeWithin r scope ∧ q ≠ scope := by
  have hpairwise := (pairwise_ancestors r).filter isScope
  rw [h, List.pairwise_append, List.pairwise_cons] at hpairwise
  obtain ⟨-, ⟨houter, -⟩, hnearer⟩ := hpairwise
  constructor
  · intro hq
    have haround : scope ∈ q.ancestors := hnearer q hq scope List.mem_cons_self
    have hfilter : q ∈ r.ancestors.filter isScope := h ▸ List.mem_append_left _ hq
    obtain ⟨hancestor, hscope⟩ := List.mem_filter.mp hfilter
    have hplace := mem_places_of_mem_ancestors hr hancestor
    refine ⟨⟨hancestor, hscope, mem_subtree_of_mem_ancestors hplace haround⟩, ?_⟩
    intro heq
    exact not_mem_subtree_of_mem_ancestors haround (heq ▸ self_mem_subtree scope)
  · intro ⟨⟨hancestor, hscope, hbelow⟩, hne⟩
    have hfilter := List.mem_filter.mpr ⟨hancestor, hscope⟩
    rw [h, List.mem_append, List.mem_cons] at hfilter
    obtain hq | hq | hq := hfilter
    · exact hq
    · exact absurd hq hne
    · exact absurd hbelow (not_mem_subtree_of_mem_ancestors (houter q hq))

/-- A name refers to what the nearest scope has in its table that has the name there. -/
theorem lookup_eq_ok_some_iff (hr : r ∈ s.places) :
    s.lookup r n = .ok (some b) ↔ ∃ scope, s.Finds r scope n b := by
  rw [lookup, lookupIn_eq_ok_some_iff]
  constructor
  · intro ⟨nearer, scope, outer, hsplit, hnearer, hfirst⟩
    have hscope : scope ∈ r.ancestors.filter isScope := by simp [hsplit]
    obtain ⟨haround, hscope⟩ := List.mem_filter.mp hscope
    refine ⟨scope, haround, hscope, hfirst, ?_⟩
    intro q hq hne
    exact hnearer q ((mem_nearer_iff hr hsplit).mpr ⟨hq, hne⟩)
  · intro ⟨scope, h⟩
    have hscope : scope ∈ r.ancestors.filter isScope := List.mem_filter.mpr ⟨h.around, h.isScope⟩
    obtain ⟨nearer, outer, hsplit⟩ := List.append_of_mem hscope
    refine ⟨nearer, scope, outer, hsplit, ?_, h.first⟩
    intro q hq
    obtain ⟨hwithin, hne⟩ := (mem_nearer_iff hr hsplit).mp hq
    exact h.nearer q hwithin hne

namespace Finds

theorem name_eq (h : s.Finds r scope n b) : b.name = n := by
  obtain ⟨bs, -, hb⟩ := h.first
  have hname := List.find?_some hb
  exact beq_iff_eq.mp hname

theorem owns (h : s.Finds r scope n b) : s.Owns scope b := by
  obtain ⟨bs, hbs, hb⟩ := h.first
  exact ⟨bs, hbs, List.mem_of_find?_eq_some hb⟩

theorem introduces (h : s.Finds r scope n b) :
    s.Introduces scope b.place b.kind ∧ s.textOf b.place = .ok n := by
  have hmem := h.owns.introduces
  rw [h.name_eq] at hmem
  exact hmem

theorem readable (h : s.Finds r scope n b) {q : Place} (hq : q.IsScopeWithin r scope) :
    s.Readable q := by
  by_cases heq : q = scope
  · obtain ⟨bs, hbs, -⟩ := h.first
    exact exists_declarations_iff.mp ⟨bs, heq ▸ hbs⟩
  · exact (exists_none_named_iff.mp (h.nearer q hq heq)).1

/-- The scope where a name is found lies in every scope around that introduces the name. -/
theorem isScopeWithin (hr : r ∈ s.places) (h : s.Finds r scope n b) {q : Place}
    (hq : q ∈ r.ancestors) (hscope : q.isScope = true) (hn : s.Names q n) :
    scope.IsScopeWithin r q := by
  refine ⟨h.around, h.isScope, ?_⟩
  obtain hbelow | hbelow := mem_subtree_or_of_mem_subtree
    (mem_subtree_of_mem_ancestors hr h.around) (mem_subtree_of_mem_ancestors hr hq)
  · exact hbelow
  · by_cases heq : q = scope
    · exact heq ▸ self_mem_subtree q
    · have hnone := h.nearer q ⟨hq, hscope, hbelow⟩ heq
      exact absurd hn (exists_none_named_iff.mp hnone).2

end Finds

/-- A name that a readable scope introduces is found there or nearer. -/
theorem exists_finds {scope : Place} (hscope : scope ∈ r.ancestors ∧ scope.isScope = true)
    (hn : s.Names scope n) (hreadable : ∀ q : Place, q.IsScopeWithin r scope → s.Readable q) :
    ∃ found b, found.IsScopeWithin r scope ∧ s.Finds r found n b := by
  have hself : scope.IsScopeWithin r scope := ⟨hscope.1, hscope.2, self_mem_subtree scope⟩
  by_cases hnearer : ∃ q : Place, q.IsScopeWithin r scope ∧ q ≠ scope ∧ s.Names q n
  · -- the recursion is on the size of the scope, and what is nearer is smaller
    obtain ⟨q, hq, hne, hnames⟩ := hnearer
    have hlt := hq.sizeOf_lt hne
    obtain ⟨found, b, hfound, hb⟩ :=
      exists_finds ⟨hq.1, hq.2.1⟩ hnames fun p hp ↦ hreadable p (hq.trans hp)
    exact ⟨found, b, hq.trans hfound, hb⟩
  · obtain ⟨b, hfirst⟩ := exists_find?_name (hreadable scope hself) hn
    refine ⟨scope, b, hself, hscope.1, hscope.2, hfirst, ?_⟩
    intro q hq hne
    refine exists_none_named_iff.mpr ⟨hreadable q hq, ?_⟩
    intro hnames
    exact hnearer ⟨q, hq, hne, hnames⟩
termination_by sizeOf scope.node

/-- A name refers to a binding of a scope: one in its table, of a node that lies in it, and an import
only through an import statement that the scope itself holds. -/
structure RefersTo (s : Source) (r : Place) (n : Text) (scope : Place) (b : Binding) : Prop where
  found : s.lookup r n = .ok (some b)
  owned : s.Owns scope b
  inside : b.place ∈ scope.subtree
  imported : b.kind.isImport = true → ∃ statement, scope.Holds statement ∧
    statement.kind = "import_statement" ∧ s.ImportNames statement b.place b.kind

theorem RefersTo.of_owns (hfound : s.lookup r n = .ok (some b)) (howned : s.Owns scope b) :
    s.RefersTo r n scope b where
  found := hfound
  owned := howned
  inside := howned.introduces.1.exposes.mem_subtree
  imported := howned.introduces.1.exists_import

theorem RefersTo.names (hr : r ∈ s.places) (h : s.RefersTo r n scope b) : s.Names scope n := by
  obtain ⟨_, hfinds⟩ := (lookup_eq_ok_some_iff hr).mp h.found
  exact hfinds.name_eq ▸ h.owned.names

/-- A name refers to a binding of a scope, or of one that is nearer, iff one of these introduces it
and none of those from there on has an unreadable table. -/
theorem exists_refersTo_iff (hr : r ∈ s.places) :
    (∃ found b, found.IsScopeWithin r scope ∧ s.RefersTo r n found b) ↔
      ∃ q : Place, q.IsScopeWithin r scope ∧ s.Names q n ∧
        ∀ p : Place, p.IsScopeWithin r q → s.Readable p := by
  constructor
  · intro ⟨q, b, hq, hb⟩
    obtain ⟨nearest, hfinds⟩ := (lookup_eq_ok_some_iff hr).mp hb.found
    have hwithin := hfinds.isScopeWithin hr hq.1 hq.2.1 (hb.names hr)
    refine ⟨nearest, hq.trans hwithin, ?_, fun p hp ↦ hfinds.readable hp⟩
    exact hfinds.name_eq ▸ hfinds.owns.names
  · intro ⟨q, hq, hnames, hreadable⟩
    obtain ⟨nearest, b, hnearest, hfinds⟩ := exists_finds ⟨hq.1, hq.2.1⟩ hnames hreadable
    refine ⟨nearest, b, hq.trans hnearest, ?_⟩
    exact .of_owns ((lookup_eq_ok_some_iff hr).mpr ⟨nearest, hfinds⟩) hfinds.owns

/-- Names never leak out of functions. A name refers to a binding iff the nearest scope around that
has the name in its table has the binding first there. The binding is then of a node that spells the
name, that lies in the scope, and of which no function of the scope holds more than its own name; its
initial value is that of the declarator which names the node. -/
theorem lookup_stays_in_scope_iff (hr : r ∈ s.places) :
    s.lookup r n = .ok (some b) ↔ ∃ scope, s.Finds r scope n b ∧ s.textOf b.place = .ok n ∧
      b.place ∈ scope.subtree ∧
      (∀ f : Place, f.IsBetween scope b.place → f.isFunction = true →
        f.field? "name" = some b.place) ∧
      ∀ value, b.value? = some value → ∃ d ∈ scope.subtree, d.Initializes b.place value := by
  rw [lookup_eq_ok_some_iff hr]
  constructor
  · intro ⟨scope, h⟩
    obtain ⟨hintroduces, htext⟩ := h.introduces
    have hexposes := hintroduces.exposes
    refine ⟨scope, h, htext, hexposes.mem_subtree, ?_, ?_⟩
    · intro f hf hfunction
      exact hexposes.name_of_isBetween hf hfunction
    · intro value hvalue
      obtain ⟨keyword, hk⟩ := Binding.kind_of_value? hvalue
      exact hintroduces.exists_initializes hk
  · intro ⟨scope, h, _⟩
    exact ⟨scope, h⟩

end Source

namespace LoopVariable

def outerName : Node := .leaf "identifier" 4 5

def declareOuter : Node := ⟨"variable_declarator", true, 4, 5, [("name", 0)], [outerName]⟩

def letOuter : Node :=
  ⟨"lexical_declaration", true, 0, 6, [],
    [.token "let" 0 3, declareOuter, .token ";" 5 6]⟩

def functionName : Node := .leaf "identifier" 16 17

def parameters : Node :=
  ⟨"formal_parameters", true, 17, 19, [],
    [.token "(" 17 18, .token ")" 18 19]⟩

def itemName : Node := .leaf "identifier" 31 32

def collection : Node := .leaf "identifier" 36 37

def innerName : Node := .leaf "identifier" 45 46

def declareInner : Node := ⟨"variable_declarator", true, 45, 46, [("name", 0)], [innerName]⟩

def varInner : Node :=
  ⟨"variable_declaration", true, 41, 47, [],
    [.token "var" 41 44, declareInner, .token ";" 46 47]⟩

def useItem : Node :=
  ⟨"expression_statement", true, 48, 50, [],
    [.leaf "identifier" 48 49, .token ";" 49 50]⟩

def useInner : Node :=
  ⟨"expression_statement", true, 51, 53, [],
    [.leaf "identifier" 51 52, .token ";" 52 53]⟩

def loopBody : Node :=
  ⟨"statement_block", true, 39, 55, [],
    [.token "\x7b" 39 40, varInner, useItem, useInner, .token "\x7d" 54 55]⟩

def loop : Node :=
  ⟨"for_in_statement", true, 22, 55, [("left", 3), ("operator", 4), ("right", 5), ("body", 7)],
    [.token "for" 22 25, .token "(" 26 27, .token "var" 27 30,
      itemName, .token "of" 33 35, collection, .token ")" 37 38, loopBody]⟩

def body : Node :=
  ⟨"statement_block", true, 20, 57, [],
    [.token "\x7b" 20 21, loop, .token "\x7d" 56 57]⟩

def function : Node :=
  ⟨"function_declaration", true, 7, 57, [("name", 1), ("parameters", 2), ("body", 3)],
    [.token "function" 7 15, functionName, parameters, body]⟩

def program : Node := ⟨"program", true, 0, 57, [], [letOuter, function]⟩

/-- The statements `let a; function f() { for (var a of f) { var b; a; b; } }`. -/
def source : Source where
  filename := "a.js"
  path := "a.js"
  bytes := (Utf8.encode?
    "let a; function f() \x7b for (var a of f) \x7b var b; a; b; \x7d \x7d").getD []
  tree := program
  hasErrors := false

def functionPlace : Place := ⟨function, [(program, 1)]⟩

def bodyPlace : Place := ⟨body, (function, 3) :: functionPlace.above⟩

def loopPlace : Place := ⟨loop, (body, 1) :: bodyPlace.above⟩

def loopBodyPlace : Place := ⟨loopBody, (loop, 7) :: loopPlace.above⟩

def collectionPlace : Place := ⟨collection, (loop, 5) :: loopPlace.above⟩

def innerPlace : Place :=
  ⟨innerName, (declareInner, 0) :: (varInner, 1) :: (loopBody, 1) :: loopBodyPlace.above⟩

def outerVariable : Binding :=
  ⟨"a", ⟨outerName, [(declareOuter, 0), (letOuter, 1), (program, 0)]⟩, .declared "let" none⟩

def functionBinding : Binding :=
  ⟨"f", ⟨functionName, (function, 1) :: functionPlace.above⟩, .functionName⟩

theorem loopPlace_mem : loopPlace ∈ source.places := by
  have hfunction : functionPlace ∈ source.places :=
    Source.mem_places_of_getElem? (Place.self_mem_subtree _) rfl
  have hbody : bodyPlace ∈ source.places := Source.mem_places_of_getElem? hfunction rfl
  exact Source.mem_places_of_getElem? hbody rfl

theorem eq_of_mem_hoisted_body {d : Place} (h : d ∈ bodyPlace.hoisted) :
    d = ⟨varInner, (loopBody, 1) :: loopBodyPlace.above⟩ := by
  obtain ⟨_, hk⟩ := Place.mem_hoisted_iff.mp h
  have hd : d ∈ bodyPlace.subtree.filter (·.kind == "variable_declaration") :=
    List.mem_filter.mpr ⟨(Place.opens_of_mem_hoisted h).mem_subtree, by simp [hk]⟩
  have hfilter : bodyPlace.subtree.filter (·.kind == "variable_declaration") =
      [⟨varInner, (loopBody, 1) :: loopBodyPlace.above⟩] := by cbv
  rw [hfilter] at hd
  exact List.mem_singleton.mp hd

theorem hoisted_program : (Place.root program).hoisted = [] := by
  rw [List.eq_nil_iff_forall_not_mem]
  intro d hd
  obtain ⟨⟨c, hc, hf, hway⟩, hk⟩ := Place.mem_hoisted_iff.mp hd
  have hchildren : (Place.root program).children =
      [⟨letOuter, [(program, 0)]⟩, functionPlace] := rfl
  simp only [hchildren, List.mem_cons, List.not_mem_nil, or_false] at hc
  obtain rfl | rfl := hc
  · exact Place.kind_ne_of_mem_subtree (by cbv) hway.mem_subtree hk
  · cases hf

theorem eq_of_introduces {x : Place} {k : BindingKind} (h : source.Introduces functionPlace x k) :
    x = innerPlace := by
  cases h with
  | parameter _ hq hx =>
    cases hq
    have hnames := Place.mem_boundNames_iff.mpr hx
    rw [Place.boundNames] at hnames
    cases hnames
  | ownName _ hself _ => exact absurd hself (by decide)
  | bodyVariable _ hbody _ hd hx =>
    cases hbody
    obtain rfl := eq_of_mem_hoisted_body hd
    obtain ⟨d, hd, hx⟩ := hx
    obtain rfl := List.mem_singleton.mp hd
    cases hx with
    | alone _ hx _ =>
      cases hx
      rfl
    | pattern _ hname hne _ =>
      cases hname
      exact absurd rfl hne
  | statement hk => exact absurd hk.1 (by decide)
  | _ hk => exact absurd hk (by decide)

theorem text_innerPlace : source.textOf innerPlace = .ok "b" := by cbv

theorem readable_function : source.Readable functionPlace := by
  refine ⟨Source.importsRead_of_kind (by decide) (by decide), ?_⟩
  intro x k hx
  rw [eq_of_introduces hx]
  exact ⟨"b", text_innerPlace⟩

theorem not_names_function {n : Text} (hn : n ≠ "b") : ¬source.Names functionPlace n := by
  intro ⟨x, k, hx, ht⟩
  rw [eq_of_introduces hx, text_innerPlace] at ht
  exact hn (Except.ok.inj ht).symm

theorem none_named_of_mem {q : Place} (h : q ∈ [loopBodyPlace, loopPlace, bodyPlace]) (n : Text) :
    source.Readable q ∧ ¬source.Names q n := by
  refine Source.exists_none_named_iff.mp ⟨[], ?_, by simp⟩
  simp only [List.mem_cons, List.not_mem_nil, or_false] at h
  obtain rfl | rfl | rfl := h <;> rfl

theorem declarations_program :
    source.declarations (.root program) = .ok [outerVariable, functionBinding] := by
  have hblock : source.blockBindings (.root program) = .ok [outerVariable, functionBinding] := by
    cbv
  rw [Source.declarations, if_neg (by decide), if_pos (by decide), hblock, Source.hoistedBindings,
    hoisted_program]
  rfl

/-- What the function does not declare is looked up in the program. -/
theorem lookup_of_ne {r : Place} {n : Text} {b : Binding} {nearer : List Place}
    (hscopes : r.ancestors.filter Place.isScope = nearer ++ [functionPlace, .root program])
    (hnearer : nearer ⊆ [loopBodyPlace, loopPlace, bodyPlace]) (hn : n ≠ "b")
    (hb : [outerVariable, functionBinding].find? (·.name == n) = some b) :
    source.lookup r n = .ok (some b) := by
  rw [Source.lookup, hscopes, Source.lookupIn_eq_ok_some_iff]
  refine ⟨nearer ++ [functionPlace], .root program, [], by simp, ?_, _, declarations_program, hb⟩
  intro q hq
  apply Source.exists_none_named_iff.mpr
  obtain hq | hq := List.mem_append.mp hq
  · exact none_named_of_mem (hnearer hq) n
  · obtain rfl := List.mem_singleton.mp hq
    exact ⟨readable_function, not_names_function hn⟩

/-- The name of the function, which is a name of the program, leaves it as the only part. -/
theorem collection_refers_to_function :
    source.lookup collectionPlace "f" = .ok (some functionBinding) ∧
      ∃ scope, source.Finds collectionPlace scope "f" functionBinding ∧
        source.textOf functionBinding.place = .ok "f" ∧
        functionBinding.place ∈ scope.subtree ∧
        (∀ f : Place, f.IsBetween scope functionBinding.place → f.isFunction = true →
          f.field? "name" = some functionBinding.place) ∧
        ∀ value, functionBinding.value? = some value →
          ∃ d ∈ scope.subtree, d.Initializes functionBinding.place value := by
  have hplace : collectionPlace ∈ source.places :=
    Source.mem_places_of_getElem? loopPlace_mem rfl
  have hscopes : collectionPlace.ancestors.filter Place.isScope =
      [loopPlace, bodyPlace] ++ [functionPlace, .root program] := by cbv
  have hlookup : source.lookup collectionPlace "f" = .ok (some functionBinding) :=
    lookup_of_ne hscopes (by simp) (by decide) (by cbv)
  exact ⟨hlookup, (Source.lookup_stays_in_scope_iff hplace).mp hlookup⟩

end LoopVariable

end MessageExtraction
