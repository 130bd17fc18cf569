import MessageExtraction.Proofs.Result
import MessageExtraction.Proofs.Scope.Ways

/-!
What the table of a scope holds, as a relation on the syntax: a scope introduces a name at a place,
of a kind. The table can be made iff all that it has to read is text, and it then holds exactly what
the scope introduces.
-/

namespace MessageExtraction

namespace Place

/-- A declarator names a variable. Only a name that stands alone keeps its initial value. -/
inductive DeclaratorNames (keyword : String) (d : Place) : Place → BindingKind → Prop
  | alone {x : Place} :
      d.kind = "variable_declarator" → d.field? "name" = some x → x.kind = "identifier" →
      DeclaratorNames keyword d x (.declared keyword (d.field? "value"))
  | pattern {name x : Place} :
      d.kind = "variable_declarator" → d.field? "name" = some name → name.kind ≠ "identifier" →
      name.Binds x → DeclaratorNames keyword d x (.declared keyword none)

def DeclarationNames (declaration x : Place) (k : BindingKind) : Prop :=
  ∃ d ∈ declaration.parts, DeclaratorNames (Source.keywordOf declaration) d x k

/-- A declaration names a variable in one of its declarators, by itself or in a pattern. -/
def DeclarationBinds (declaration x : Place) : Prop :=
  ∃ d ∈ declaration.parts, d.kind = "variable_declarator" ∧
    ∃ pattern, d.field? "name" = some pattern ∧ pattern.Binds x

theorem DeclarationBinds.exists_names {declaration x : Place} (h : declaration.DeclarationBinds x) :
    ∃ k, declaration.DeclarationNames x k := by
  obtain ⟨d, hd, hk, pattern, hpattern, hx⟩ := h
  by_cases hi : pattern.kind = "identifier"
  · obtain rfl := hx.eq_of_identifier hi
    exact ⟨_, d, hd, .alone hk hpattern hi⟩
  · exact ⟨_, d, hd, .pattern hk hpattern hi hx⟩

theorem DeclarationNames.binds {declaration x : Place} {k : BindingKind}
    (h : declaration.DeclarationNames x k) : declaration.DeclarationBinds x := by
  obtain ⟨d, hd, h⟩ := h
  cases h with
  | alone hk hx hi => exact ⟨d, hd, hk, x, hx, .name (.inl hi)⟩
  | pattern hk hname _ hx => exact ⟨d, hd, hk, _, hname, hx⟩

/-- The statements whose declarations belong to a block or a program. -/
def Holds (scope statement : Place) : Prop :=
  (scope.kind = "program" ∨ scope.kind ∈ blockKinds) ∧
    statement ∈ scope.parts.filterMap Source.exported?

end Place

namespace Source

open Place

variable {s : Source}

/-- The name under which a module exports what a specifier of an import asks for. -/
def exportedName (s : Source) (name : Place) : Except Fault Text :=
  if name.kind = "string" then s.stringValue name else s.textOf name

/-- A specifier of an import makes a name known. -/
def SpecifierNames (s : Source) (module : Text) (specifier x : Place) (k : BindingKind) : Prop :=
  specifier.kind = "import_specifier" ∧ ∃ name, specifier.field? "name" = some name ∧
    x = (specifier.field? "alias").getD name ∧
    ∃ exported, s.exportedName name = .ok exported ∧ k = .imported module exported

inductive ClauseNames (s : Source) (module : Text) (part : Place) : Place → BindingKind → Prop
  | default : part.kind = "identifier" → ClauseNames s module part part (.imported module "default")
  | whole {x : Place} :
      part.kind = "namespace_import" → part.childOfKind? "identifier" = some x →
      ClauseNames s module part x (.wholeModule module)
  | named {specifier x : Place} {k : BindingKind} :
      part.kind = "named_imports" → specifier ∈ part.parts → s.SpecifierNames module specifier x k →
      ClauseNames s module part x k

def ImportNames (s : Source) (statement x : Place) (k : BindingKind) : Prop :=
  ∃ source clause, statement.field? "source" = some source ∧
    statement.childOfKind? "import_clause" = some clause ∧
    ∃ module, s.stringValue source = .ok module ∧
      ∃ part ∈ clause.parts, s.ClauseNames module part x k

/-- What a statement declares in the block that it stands in. -/
inductive StatementNames (s : Source) (statement : Place) : Place → BindingKind → Prop
  | import {x : Place} {k : BindingKind} :
      statement.kind = "import_statement" → s.ImportNames statement x k →
      StatementNames s statement x k
  | variable {x : Place} {k : BindingKind} :
      statement.kind = "lexical_declaration" → statement.DeclarationNames x k →
      StatementNames s statement x k
  | function {x : Place} :
      statement.kind = "function_declaration" ∨ statement.kind = "generator_function_declaration" →
      statement.field? "name" = some x → StatementNames s statement x .functionName
  | class {x : Place} :
      statement.kind = "class_declaration" ∨ statement.kind = "abstract_class_declaration" →
      statement.field? "name" = some x → StatementNames s statement x .className

/-- A scope introduces a name at a place. -/
inductive Introduces (s : Source) (scope : Place) : Place → BindingKind → Prop
  | parameter {q x : Place} :
      scope.isFunction = true →
      (scope.field? "parameters").or (scope.field? "parameter") = some q → q.Binds x →
      Introduces s scope x .parameter
  | ownName {x : Place} :
      scope.isFunction = true → scope.kind ∈ selfNamedKinds → scope.field? "name" = some x →
      Introduces s scope x .functionName
  | bodyVariable {body d x : Place} {k : BindingKind} :
      scope.isFunction = true → scope.field? "body" = some body → body.kind = "statement_block" →
      d ∈ body.hoisted → d.DeclarationNames x k → Introduces s scope x k
  | programVariable {d x : Place} {k : BindingKind} :
      scope.kind = "program" → d ∈ scope.hoisted → d.DeclarationNames x k →
      Introduces s scope x k
  | statement {statement x : Place} {k : BindingKind} :
      scope.Holds statement → s.StatementNames statement x k → Introduces s scope x k
  | loopVariable {d x : Place} {k : BindingKind} :
      scope.kind = "for_statement" → scope.field? "initializer" = some d →
      d.kind = "lexical_declaration" → d.DeclarationNames x k → Introduces s scope x k
  | item {left keyword x : Place} :
      scope.kind = "for_in_statement" → scope.field? "left" = some left →
      scope.children.find? (fun c ↦ c.kind == "const" || c.kind == "let") = some keyword →
      left.Binds x → Introduces s scope x (.declared keyword.kind none)
  | caught {q x : Place} :
      scope.kind = "catch_clause" → scope.field? "parameter" = some q → q.Binds x →
      Introduces s scope x .caught

def Reads (s : Source) (x : Place) : Prop := ∃ t, s.textOf x = .ok t

/-- The texts that an import needs besides the names that it makes known. -/
def ImportReads (s : Source) (statement : Place) : Prop :=
  ∀ source clause, statement.field? "source" = some source →
    statement.childOfKind? "import_clause" = some clause →
    (∃ t, s.stringValue source = .ok t) ∧
    ∀ part ∈ clause.parts, part.kind = "named_imports" → ∀ specifier ∈ part.parts,
      specifier.kind = "import_specifier" → ∀ name, specifier.field? "name" = some name →
        ∃ t, s.exportedName name = .ok t

def ImportsRead (s : Source) (scope : Place) : Prop :=
  ∀ statement, scope.Holds statement → statement.kind = "import_statement" →
    s.ImportReads statement

/-- Every text is readable that the table of a scope is made from. -/
def Readable (s : Source) (scope : Place) : Prop :=
  s.ImportsRead scope ∧ ∀ x k, s.Introduces scope x k → s.Reads x

/-- Bindings that can be made iff the names, and something else, are readable, and are then exactly
those of the names. -/
structure Tabulates (s : Source) (found : Except Fault (List Binding))
    (names : Place → BindingKind → Prop) (others : Prop) : Prop where
  ok_iff : (∃ bs, found = .ok bs) ↔ others ∧ ∀ x k, names x k → s.Reads x
  mem_iff : ∀ bs, found = .ok bs →
    ∀ b, b ∈ bs ↔ names b.place b.kind ∧ s.textOf b.place = .ok b.name

namespace Tabulates

variable {found found' : Except Fault (List Binding)} {names names' : Place → BindingKind → Prop}
  {others others' : Prop}

theorem congr (h : s.Tabulates found names others) (hn : ∀ x k, names x k ↔ names' x k)
    (ho : others ↔ others') : s.Tabulates found names' others' := by
  obtain rfl : names = names' := by
    funext x k
    exact propext (hn x k)
  obtain rfl : others = others' := propext ho
  exact h

theorem nil : s.Tabulates (.ok []) (fun _ _ ↦ False) True := by
  refine ⟨by simp, ?_⟩
  intro bs hbs b
  cases hbs
  simp

theorem exists_bind_iff {kind : BindingKind} {p : Place} :
    (∃ b, s.bind kind p = .ok b) ↔ s.Reads p := by
  simp only [bind, bind_eq_ok, pure_eq_ok]
  exact ⟨fun ⟨_, t, ht, _⟩ ↦ ⟨t, ht⟩, fun ⟨t, ht⟩ ↦ ⟨_, t, ht, rfl⟩⟩

theorem bind_eq_ok_iff {kind : BindingKind} {p : Place} {b : Binding} :
    s.bind kind p = .ok b ↔ b.place = p ∧ b.kind = kind ∧ s.textOf b.place = .ok b.name := by
  rw [bind, bind_eq_ok]
  constructor
  · intro ⟨t, ht, hb⟩
    rw [← pure_eq_ok.mp hb]
    exact ⟨rfl, rfl, ht⟩
  · intro ⟨hp, hk, ht⟩
    obtain ⟨name, place, k⟩ := b
    cases hp
    cases hk
    exact ⟨name, ht, rfl⟩

theorem each (kind : BindingKind) (ps : List Place) :
    s.Tabulates (s.bindEach kind ps) (fun x k ↦ x ∈ ps ∧ k = kind) True := by
  constructor
  · simp only [bindEach, exists_mapM_eq_ok_iff, exists_bind_iff, true_and]
    exact ⟨fun h x k hx ↦ h x hx.1, fun h p hp ↦ h p kind ⟨hp, rfl⟩⟩
  · intro bs hbs b
    simp only [mem_of_mapM_iff hbs, bind_eq_ok_iff]
    constructor
    · intro ⟨p, hp, hplace, hk, ht⟩
      exact ⟨⟨hplace ▸ hp, hk⟩, ht⟩
    · intro ⟨⟨hp, hk⟩, ht⟩
      exact ⟨b.place, hp, rfl, hk, ht⟩

theorem one (kind : BindingKind) (p : Place) :
    s.Tabulates (do return [← s.bind kind p]) (fun x k ↦ x = p ∧ k = kind) True := by
  have heach := each (s := s) kind [p]
  have hone : s.bindEach kind [p] = do return [← s.bind kind p] := by
    rw [bindEach, List.mapM_cons, List.mapM_nil]
    cases s.bind kind p <;> rfl
  rw [hone] at heach
  exact heach.congr (by simp) Iff.rfl

theorem optional (kind : BindingKind) (p : Option Place) :
    s.Tabulates (s.bindOptional kind p) (fun x k ↦ p = some x ∧ k = kind) True := by
  cases p with
  | none => exact nil.congr (by simp) Iff.rfl
  | some p => exact (one kind p).congr (by simp [eq_comm]) Iff.rfl

theorem gather {f : Place → Except Fault (List Binding)} {ps : List Place}
    {names : Place → Place → BindingKind → Prop} {others : Place → Prop}
    (h : ∀ p ∈ ps, s.Tabulates (f p) (names p) (others p)) :
    s.Tabulates (gather f ps) (fun x k ↦ ∃ p ∈ ps, names p x k) (∀ p ∈ ps, others p) := by
  constructor
  · have hgather : (∃ bs, Source.gather f ps = .ok bs) ↔ ∀ p ∈ ps, ∃ bs, f p = .ok bs := by
      simp only [Source.gather, bind_eq_ok, pure_eq_ok, ← exists_mapM_eq_ok_iff]
      exact ⟨fun ⟨_, bss, h, _⟩ ↦ ⟨bss, h⟩, fun ⟨bss, h⟩ ↦ ⟨_, bss, h, rfl⟩⟩
    rw [hgather]
    constructor
    · intro hok
      refine ⟨fun p hp ↦ ((h p hp).ok_iff.mp (hok p hp)).1, ?_⟩
      intro x k ⟨p, hp, hx⟩
      exact ((h p hp).ok_iff.mp (hok p hp)).2 x k hx
    · intro ⟨hothers, hreads⟩ p hp
      exact (h p hp).ok_iff.mpr ⟨hothers p hp, fun x k hx ↦ hreads x k ⟨p, hp, hx⟩⟩
  · intro bs hbs b
    obtain ⟨bss, hbss, hbs⟩ := bind_eq_ok.mp hbs
    rw [← pure_eq_ok.mp hbs, List.mem_flatten]
    constructor
    · intro ⟨l, hl, hb⟩
      obtain ⟨p, hp, hl⟩ := (mem_of_mapM_iff hbss).mp hl
      obtain ⟨hnames, ht⟩ := ((h p hp).mem_iff l hl b).mp hb
      exact ⟨⟨p, hp, hnames⟩, ht⟩
    · intro ⟨⟨p, hp, hnames⟩, ht⟩
      obtain ⟨l, hl⟩ := exists_mapM_eq_ok_iff.mp ⟨bss, hbss⟩ p hp
      exact ⟨l, (mem_of_mapM_iff hbss).mpr ⟨p, hp, hl⟩, ((h p hp).mem_iff l hl b).mpr ⟨hnames, ht⟩⟩

theorem append (h : s.Tabulates found names others) (h' : s.Tabulates found' names' others') :
    s.Tabulates (do return (← found) ++ (← found')) (fun x k ↦ names x k ∨ names' x k)
      (others ∧ others') := by
  constructor
  · have hok : (∃ bs, (do return (← found) ++ (← found') : Except Fault (List Binding)) = .ok bs) ↔
        (∃ bs, found = .ok bs) ∧ ∃ bs, found' = .ok bs := by
      simp only [bind_eq_ok, pure_eq_ok]
      exact ⟨fun ⟨_, a, ha, b, hb, _⟩ ↦ ⟨⟨a, ha⟩, b, hb⟩, fun ⟨⟨a, ha⟩, b, hb⟩ ↦ ⟨_, a, ha, b, hb, rfl⟩⟩
    rw [hok, h.ok_iff, h'.ok_iff]
    constructor
    · intro ⟨⟨ho, hr⟩, ho', hr'⟩
      exact ⟨⟨ho, ho'⟩, fun x k hx ↦ hx.elim (hr x k) (hr' x k)⟩
    · intro ⟨⟨ho, ho'⟩, hr⟩
      exact ⟨⟨ho, fun x k hx ↦ hr x k (.inl hx)⟩, ho', fun x k hx ↦ hr x k (.inr hx)⟩
  · intro bs hbs b
    obtain ⟨l, hl, hbs⟩ := bind_eq_ok.mp hbs
    obtain ⟨l', hl', hbs⟩ := bind_eq_ok.mp hbs
    rw [← pure_eq_ok.mp hbs, List.mem_append, h.mem_iff l hl b, h'.mem_iff l' hl' b, or_and_right]

theorem append_append {found'' : Except Fault (List Binding)}
    {names'' : Place → BindingKind → Prop} {others'' : Prop} (h : s.Tabulates found names others)
    (h' : s.Tabulates found' names' others') (h'' : s.Tabulates found'' names'' others'') :
    s.Tabulates (do return (← found) ++ (← found') ++ (← found''))
      (fun x k ↦ (names x k ∨ names' x k) ∨ names'' x k) ((others ∧ others') ∧ others'') := by
  have hassoc : (do return (← found) ++ (← found') ++ (← found'') : Except Fault (List Binding)) =
      (do return (← (do return (← found) ++ (← found'))) ++ (← found'')) := by
    cases found <;> cases found' <;> rfl
  rw [hassoc]
  exact (h.append h').append h''

theorem andThen {α : Type} {first : Except Fault α} {next : α → Except Fault (List Binding)}
    {names : α → Place → BindingKind → Prop} {others : α → Prop}
    (h : ∀ a, s.Tabulates (next a) (names a) (others a)) :
    s.Tabulates (first >>= next) (fun x k ↦ ∃ a, first = .ok a ∧ names a x k)
      (∃ a, first = .ok a ∧ others a) := by
  cases first with
  | error e => exact ⟨by simp [error_bind], fun bs hbs ↦ by cases hbs⟩
  | ok a =>
    rw [ok_bind]
    exact (h a).congr (by simp) (by simp)

end Tabulates

open Tabulates

theorem tabulates_declarator (keyword : String) (d : Place) :
    s.Tabulates (s.declaratorBindings keyword d) (DeclaratorNames keyword d) True := by
  unfold declaratorBindings
  split
  · rename_i hk
    refine nil.congr (fun x k ↦ iff_of_false id ?_) Iff.rfl
    intro h
    cases h <;> contradiction
  rename_i hk
  rw [not_not] at hk
  split
  · rename_i hname
    refine nil.congr (fun x k ↦ iff_of_false id ?_) Iff.rfl
    intro h
    cases h <;> simp_all
  rename_i name hname
  split
  · rename_i hi
    refine (one _ name).congr (fun x k ↦ ⟨?_, ?_⟩) Iff.rfl
    · intro ⟨hx, hkind⟩
      rw [hx, hkind]
      exact .alone hk hname hi
    · intro h
      cases h with
      | alone _ hx _ => exact ⟨Option.some.inj (hx.symm.trans hname), rfl⟩
      | pattern _ hx hne _ =>
        rw [Option.some.inj (hx.symm.trans hname)] at hne
        exact absurd hi hne
  · rename_i hi
    refine (each _ _).congr (fun x k ↦ ⟨?_, ?_⟩) Iff.rfl
    · intro ⟨hx, hkind⟩
      rw [hkind]
      exact .pattern hk hname hi (mem_boundNames_iff.mp hx)
    · intro h
      cases h with
      | alone _ hx hid =>
        rw [Option.some.inj (hx.symm.trans hname)] at hid
        exact absurd hid hi
      | pattern _ hx _ hbinds =>
        rw [Option.some.inj (hx.symm.trans hname)] at hbinds
        exact ⟨mem_boundNames_iff.mpr hbinds, rfl⟩

theorem tabulates_declaration (declaration : Place) :
    s.Tabulates (s.declarationBindings declaration) declaration.DeclarationNames True :=
  (Tabulates.gather fun d _ ↦ tabulates_declarator _ d).congr (fun _ _ ↦ Iff.rfl) (by simp)

theorem specifierBindings_of_name {module : Text} {specifier name : Place}
    (hk : specifier.kind = "import_specifier") (hname : specifier.field? "name" = some name) :
    s.specifierBindings module specifier = s.exportedName name >>= fun exported ↦
      (do return [← s.bind (.imported module exported) ((specifier.field? "alias").getD name)]) := by
  rw [specifierBindings, if_neg (not_not.mpr hk), exportedName, hname]
  dsimp only
  split <;> rfl

theorem tabulates_specifier (module : Text) (specifier : Place) :
    s.Tabulates (s.specifierBindings module specifier) (s.SpecifierNames module specifier)
      (specifier.kind = "import_specifier" → ∀ name, specifier.field? "name" = some name →
        ∃ t, s.exportedName name = .ok t) := by
  by_cases hk : specifier.kind = "import_specifier"
  · cases hname : specifier.field? "name" with
    | none =>
      rw [specifierBindings, if_neg (not_not.mpr hk), hname]
      exact nil.congr (fun x k ↦ by simp [SpecifierNames, hname]) (by simp)
    | some name =>
      rw [specifierBindings_of_name hk hname]
      refine (andThen fun exported ↦ one _ _).congr (fun x k ↦ ⟨?_, ?_⟩) (by simp [hk])
      · intro ⟨exported, hexported, hx, hkind⟩
        exact ⟨hk, name, hname, hx, exported, hexported, hkind⟩
      · intro ⟨_, other, hother, hx, exported, hexported, hkind⟩
        obtain rfl := Option.some.inj (hother.symm.trans hname)
        exact ⟨exported, hexported, hx, hkind⟩
  · rw [specifierBindings, if_pos hk]
    exact nil.congr (fun x k ↦ iff_of_false id fun h ↦ hk h.1) (by simp [hk])

theorem tabulates_clause (module : Text) (part : Place) :
    s.Tabulates (s.clauseBindings module part) (s.ClauseNames module part)
      (part.kind = "named_imports" → ∀ specifier ∈ part.parts,
        specifier.kind = "import_specifier" → ∀ name, specifier.field? "name" = some name →
          ∃ t, s.exportedName name = .ok t) := by
  unfold clauseBindings
  split
  · rename_i hk
    refine (one _ part).congr (fun x k ↦ ⟨?_, ?_⟩) (by simp [hk])
    · intro ⟨hx, hkind⟩
      rw [hx, hkind]
      exact .default hk
    · intro h
      cases h <;> simp_all
  · rename_i hk
    refine (optional _ _).congr (fun x k ↦ ⟨?_, ?_⟩) (by simp [hk])
    · intro ⟨hx, hkind⟩
      rw [hkind]
      exact .whole hk hx
    · intro h
      cases h <;> simp_all
  · rename_i hk
    refine (Tabulates.gather fun specifier _ ↦ tabulates_specifier module specifier).congr
      (fun x k ↦ ⟨?_, ?_⟩) (by simp [hk])
    · intro ⟨specifier, hspecifier, hx⟩
      exact .named hk hspecifier hx
    · intro h
      cases h with
      | default hd => simp [hk] at hd
      | whole hw _ => simp [hk] at hw
      | named _ hspecifier hx => exact ⟨_, hspecifier, hx⟩
  · rename_i hidentifier hnamespace hnamed
    refine nil.congr (fun x k ↦ iff_of_false id ?_) ⟨fun _ h ↦ absurd h hnamed, fun _ ↦ trivial⟩
    intro h
    cases h <;> contradiction

theorem tabulates_import (statement : Place) :
    s.Tabulates (s.importBindings statement) (s.ImportNames statement)
      (s.ImportReads statement) := by
  unfold importBindings
  split
  · rename_i source clause hsource hclause
    refine (andThen fun module ↦
      Tabulates.gather fun part _ ↦ tabulates_clause module part).congr (fun x k ↦ ⟨?_, ?_⟩) ?_
    · intro ⟨module, hmodule, hx⟩
      exact ⟨source, clause, hsource, hclause, module, hmodule, hx⟩
    · intro ⟨source', clause', hsource', hclause', hx⟩
      obtain rfl := Option.some.inj (hsource'.symm.trans hsource)
      obtain rfl := Option.some.inj (hclause'.symm.trans hclause)
      exact hx
    · simp only [ImportReads, hsource, hclause, Option.some.injEq]
      constructor
      · intro ⟨module, hmodule, hparts⟩ _ _ h h'
        cases h
        cases h'
        exact ⟨⟨module, hmodule⟩, hparts⟩
      · intro h
        obtain ⟨⟨module, hmodule⟩, hparts⟩ := h source clause rfl rfl
        exact ⟨module, hmodule, hparts⟩
  · rename_i hnone
    refine nil.congr (fun x k ↦ iff_of_false id ?_) ?_
    · intro ⟨source, clause, hsource, hclause, _⟩
      exact hnone source clause hsource hclause
    · simp only [true_iff]
      intro source clause hsource hclause
      exact absurd hclause (hnone source clause hsource)

theorem statementNames_function {statement x : Place} {k : BindingKind}
    (hk : statement.kind = "function_declaration" ∨
      statement.kind = "generator_function_declaration") :
    s.StatementNames statement x k ↔ statement.field? "name" = some x ∧ k = .functionName := by
  constructor
  · intro h
    cases h with
    | function _ hx => exact ⟨hx, rfl⟩
    | _ h => obtain hk | hk := hk <;> simp [hk] at h
  · intro ⟨hx, hkind⟩
    rw [hkind]
    exact .function hk hx

theorem statementNames_class {statement x : Place} {k : BindingKind}
    (hk : statement.kind = "class_declaration" ∨ statement.kind = "abstract_class_declaration") :
    s.StatementNames statement x k ↔ statement.field? "name" = some x ∧ k = .className := by
  constructor
  · intro h
    cases h with
    | «class» _ hx => exact ⟨hx, rfl⟩
    | _ h => obtain hk | hk := hk <;> simp [hk] at h
  · intro ⟨hx, hkind⟩
    rw [hkind]
    exact .class hk hx

theorem tabulates_statement (statement : Place) :
    s.Tabulates (s.statementBindings statement) (s.StatementNames statement)
      (statement.kind = "import_statement" → s.ImportReads statement) := by
  unfold statementBindings
  split
  · rename_i hk
    refine (tabulates_import statement).congr (fun x k ↦ ⟨.import hk, ?_⟩) (by simp [hk])
    intro h
    cases h <;> simp_all
  · rename_i hk
    refine (tabulates_declaration statement).congr (fun x k ↦ ⟨.variable hk, ?_⟩) (by simp [hk])
    intro h
    cases h <;> simp_all
  · rename_i hk
    exact (optional _ _).congr (fun _ _ ↦ (statementNames_function (.inl hk)).symm) (by simp [hk])
  · rename_i hk
    exact (optional _ _).congr (fun _ _ ↦ (statementNames_function (.inr hk)).symm) (by simp [hk])
  · rename_i hk
    exact (optional _ _).congr (fun _ _ ↦ (statementNames_class (.inl hk)).symm) (by simp [hk])
  · rename_i hk
    exact (optional _ _).congr (fun _ _ ↦ (statementNames_class (.inr hk)).symm) (by simp [hk])
  · rename_i himport _ _ _ _ _
    refine nil.congr (fun x k ↦ iff_of_false id ?_) ⟨fun _ h ↦ absurd h himport, fun _ ↦ trivial⟩
    intro h
    cases h <;> simp_all

theorem tabulates_block (block : Place) :
    s.Tabulates (s.blockBindings block)
      (fun x k ↦ ∃ statement ∈ block.parts.filterMap exported?, s.StatementNames statement x k)
      (∀ statement ∈ block.parts.filterMap exported?,
        statement.kind = "import_statement" → s.ImportReads statement) :=
  Tabulates.gather fun statement _ ↦ tabulates_statement statement

theorem tabulates_hoisted (body : Place) :
    s.Tabulates (s.hoistedBindings body) (fun x k ↦ ∃ d ∈ body.hoisted, d.DeclarationNames x k)
      True :=
  (Tabulates.gather fun d _ ↦ tabulates_declaration d).congr (fun _ _ ↦ Iff.rfl) (by simp)

theorem tabulates_pattern (kind : BindingKind) (p : Option Place) :
    s.Tabulates (s.bindEach kind (p.elim [] boundNames))
      (fun x k ↦ ∃ q, p = some q ∧ q.Binds x ∧ k = kind) True := by
  refine (each kind _).congr (fun x k ↦ ?_) Iff.rfl
  cases p with
  | none => simp
  | some q => simp [mem_boundNames_iff]

theorem kind_of_isFunction {p : Place} (hf : p.isFunction = true) :
    p.kind ≠ "program" ∧ p.kind ∉ blockKinds ∧ p.kind ≠ "for_statement" ∧
      p.kind ≠ "for_in_statement" ∧ p.kind ≠ "catch_clause" := by
  rw [isFunction, List.contains_iff_mem] at hf
  simp only [functionKinds, List.mem_cons, List.not_mem_nil, or_false] at hf
  obtain hf | hf | hf | hf | hf | hf | hf := hf <;> rw [hf] <;> decide

theorem tabulates_function {function : Place} (hf : function.isFunction = true) :
    s.Tabulates (s.functionBindings function) (s.Introduces function) True := by
  refine (append_append (tabulates_pattern _ _) (optional _ _)
    (Tabulates.gather fun body _ ↦ tabulates_hoisted body)).congr (fun x k ↦ ⟨?_, ?_⟩) (by simp)
  · intro h
    obtain (⟨q, hq, hx, rfl⟩ | ⟨hown, rfl⟩) | ⟨body, hbody, d, hd, hx⟩ := h
    · exact .parameter hf hq hx
    · split at hown
      · rename_i hself
        exact .ownName hf (List.contains_iff_mem.mp hself) hown
      · cases hown
    · obtain ⟨hbody, hblock⟩ := Option.filter_eq_some_iff.mp (Option.mem_toList.mp hbody)
      exact .bodyVariable hf hbody (beq_iff_eq.mp hblock) hd hx
  · intro h
    obtain ⟨hprogram, hblock, hfor, hforIn, hcatch⟩ := kind_of_isFunction hf
    cases h with
    | parameter _ hq hx => exact .inl (.inl ⟨_, hq, hx, rfl⟩)
    | ownName _ hself hown =>
      refine .inl (.inr ⟨?_, rfl⟩)
      rw [if_pos (List.contains_iff_mem.mpr hself), hown]
    | bodyVariable _ hbody hkind hd hx =>
      refine .inr ⟨_, Option.mem_toList.mpr ?_, _, hd, hx⟩
      exact Option.filter_eq_some_iff.mpr ⟨hbody, beq_iff_eq.mpr hkind⟩
    | programVariable hk => exact absurd hk hprogram
    | statement hk => exact (hk.1.elim hprogram hblock).elim
    | loopVariable hk => exact absurd hk hfor
    | item hk => exact absurd hk hforIn
    | caught hk => exact absurd hk hcatch

theorem importsRead_of_kind {scope : Place} (hprogram : scope.kind ≠ "program")
    (hblock : scope.kind ∉ blockKinds) : s.ImportsRead scope :=
  fun _ h ↦ (h.1.elim hprogram hblock).elim

theorem tabulates_program {scope : Place} (hk : scope.kind = "program") :
    s.Tabulates (do return (← s.blockBindings scope) ++ (← s.hoistedBindings scope))
      (s.Introduces scope) (s.ImportsRead scope) := by
  refine ((tabulates_block scope).append (tabulates_hoisted scope)).congr (fun x k ↦ ⟨?_, ?_⟩) ?_
  · intro h
    obtain ⟨statement, hstatement, hx⟩ | ⟨d, hd, hx⟩ := h
    · exact .statement ⟨.inl hk, hstatement⟩ hx
    · exact .programVariable hk hd hx
  · intro h
    cases h with
    | programVariable _ hd hx => exact .inr ⟨_, hd, hx⟩
    | statement hstatement hx => exact .inl ⟨_, hstatement.2, hx⟩
    | _ h => simp [isFunction, hk, functionKinds] at h
  · simp [ImportsRead, Holds, hk]

theorem tabulates_blockScope {scope : Place} (hk : scope.kind ∈ blockKinds) :
    s.Tabulates (s.blockBindings scope) (s.Introduces scope) (s.ImportsRead scope) := by
  have hkinds := hk
  simp only [blockKinds, List.mem_cons, List.not_mem_nil, or_false] at hkinds
  refine (tabulates_block scope).congr (fun x k ↦ ⟨?_, ?_⟩) ?_
  · intro ⟨statement, hstatement, hx⟩
    exact .statement ⟨.inr hk, hstatement⟩ hx
  · intro h
    cases h with
    | statement hstatement hx => exact ⟨_, hstatement.2, hx⟩
    | _ h => obtain hk | hk | hk := hkinds <;> simp [isFunction, hk, functionKinds] at h
  · simp [ImportsRead, Holds, hk]

theorem tabulates_loop {scope : Place} (hk : scope.kind = "for_statement") :
    s.Tabulates (Source.gather s.declarationBindings
      ((scope.field? "initializer").filter (·.kind == "lexical_declaration")).toList)
      (s.Introduces scope) True := by
  refine (Tabulates.gather fun d _ ↦ tabulates_declaration d).congr (fun x k ↦ ⟨?_, ?_⟩) (by simp)
  · intro ⟨d, hd, hx⟩
    obtain ⟨hd, hlexical⟩ := Option.filter_eq_some_iff.mp (Option.mem_toList.mp hd)
    exact .loopVariable hk hd (beq_iff_eq.mp hlexical) hx
  · intro h
    cases h with
    | loopVariable _ hd hlexical hx =>
      refine ⟨_, Option.mem_toList.mpr ?_, hx⟩
      exact Option.filter_eq_some_iff.mpr ⟨hd, beq_iff_eq.mpr hlexical⟩
    | statement h => simp [Holds, hk, blockKinds] at h
    | _ h => simp [isFunction, hk, functionKinds] at h

theorem tabulates_loopHead {scope : Place} (hk : scope.kind = "for_in_statement") :
    s.Tabulates (s.loopHeadBindings scope) (s.Introduces scope) True := by
  unfold loopHeadBindings
  dsimp only
  split
  · rename_i left keyword hleft hkeyword
    refine (each _ _).congr (fun x k ↦ ⟨?_, ?_⟩) Iff.rfl
    · intro ⟨hx, hkind⟩
      rw [hkind]
      exact .item hk hleft hkeyword (mem_boundNames_iff.mp hx)
    · intro h
      cases h with
      | item _ hleft' hkeyword' hx =>
        obtain rfl := Option.some.inj (hleft'.symm.trans hleft)
        obtain rfl := Option.some.inj (hkeyword'.symm.trans hkeyword)
        exact ⟨mem_boundNames_iff.mpr hx, rfl⟩
      | statement h => simp [Holds, hk, blockKinds] at h
      | _ h => simp [isFunction, hk, functionKinds] at h
  · rename_i hnone
    refine nil.congr (fun x k ↦ iff_of_false id ?_) Iff.rfl
    intro h
    cases h with
    | item _ hleft hkeyword _ => exact hnone _ _ hleft hkeyword
    | statement h => simp [Holds, hk, blockKinds] at h
    | _ h => simp [isFunction, hk, functionKinds] at h

theorem tabulates_catch {scope : Place} (hk : scope.kind = "catch_clause") :
    s.Tabulates (s.bindEach .caught ((scope.field? "parameter").elim [] boundNames))
      (s.Introduces scope) True := by
  refine (tabulates_pattern _ _).congr (fun x k ↦ ⟨?_, ?_⟩) Iff.rfl
  · intro ⟨q, hq, hx, hkind⟩
    rw [hkind]
    exact .caught hk hq hx
  · intro h
    cases h with
    | caught _ hq hx => exact ⟨_, hq, hx, rfl⟩
    | statement h => simp [Holds, hk, blockKinds] at h
    | _ h => simp [isFunction, hk, functionKinds] at h

/-- The table of a scope holds what the scope introduces. -/
theorem tabulates_declarations (scope : Place) :
    s.Tabulates (s.declarations scope) (s.Introduces scope) (s.ImportsRead scope) := by
  unfold declarations
  split
  · rename_i hf
    obtain ⟨hprogram, hblock, -⟩ := kind_of_isFunction hf
    exact (tabulates_function hf).congr (fun _ _ ↦ Iff.rfl)
      (iff_of_true trivial (importsRead_of_kind hprogram hblock))
  split
  · rename_i hk
    exact tabulates_program hk
  split
  · rename_i hk
    exact tabulates_blockScope (List.contains_iff_mem.mp hk)
  rename_i hf hprogram hblock
  rw [List.contains_iff_mem] at hblock
  have himports := iff_of_true trivial (importsRead_of_kind (s := s) hprogram hblock)
  split
  · rename_i hk
    exact (tabulates_loop hk).congr (fun _ _ ↦ Iff.rfl) himports
  · rename_i hk
    exact (tabulates_loopHead hk).congr (fun _ _ ↦ Iff.rfl) himports
  · rename_i hk
    exact (tabulates_catch hk).congr (fun _ _ ↦ Iff.rfl) himports
  · refine nil.congr (fun x k ↦ iff_of_false id ?_) himports
    intro h
    cases h with
    | statement h => exact (h.1.elim hprogram hblock).elim
    | _ h => contradiction

/-- A table can be made iff all that it is made from is readable. -/
theorem exists_declarations_iff {scope : Place} :
    (∃ bs, s.declarations scope = .ok bs) ↔ s.Readable scope :=
  (tabulates_declarations scope).ok_iff

theorem mem_declarations_iff {scope : Place} {bs : List Binding} (h : s.declarations scope = .ok bs)
    {b : Binding} :
    b ∈ bs ↔ s.Introduces scope b.place b.kind ∧ s.textOf b.place = .ok b.name :=
  (tabulates_declarations scope).mem_iff bs h b

end Source

end MessageExtraction
