import MessageExtraction.Proofs.Folding.Faults
import MessageExtraction.Proofs.Scope.Hoisting
import MessageExtraction.Proofs.Scope.Writes

/-!
Variables that are declared more than once with `var`. The table of a function or of a program takes
up its statements from the last to the first, but the declarators of a statement from the first to
the last, and the declarator that it meets first decides the value of the variable.
-/

namespace MessageExtraction

open Folding

namespace Place

variable {p q d e x body : Place} {k : BindingKind}

/-- A place stands before another one, and neither is in the other. -/
def IsBefore (p q : Place) : Prop :=
  ∃ (r c d : Place) (i j : Nat), c.IsChildAt r i ∧ d.IsChildAt r j ∧ i < j ∧
    p ∈ c.subtree ∧ q ∈ d.subtree

theorem IsBefore.ne (h : p.IsBefore q) : p ≠ q := by
  intro heq
  obtain ⟨r, c, d, i, j, hc, hd, hlt, hpc, hqd⟩ := h
  rw [← heq] at hqd
  obtain rfl := eq_of_mem_subtree_of_siblings hc.mem_children hd.mem_children hpc hqd
  have habove := hc.2.symm.trans hd.2
  have hij := (Prod.mk.inj (List.cons.inj habove).1).2
  omega

theorem IsBefore.of_mem_subtree {p' q' : Place} (h : p.IsBefore q) (hp : p' ∈ p.subtree)
    (hq : q' ∈ q.subtree) : p'.IsBefore q' := by
  obtain ⟨r, c, d, i, j, hc, hd, hlt, hpc, hqd⟩ := h
  exact ⟨r, c, d, i, j, hc, hd, hlt, mem_subtree_trans hpc hp, mem_subtree_trans hqd hq⟩

theorem pairwise_children (p : Place) : p.children.Pairwise IsBefore := by
  rw [List.pairwise_iff_getElem]
  intro i j hi hj hlt
  have hchild (k : Nat) (hk : k < p.children.length) : p.children[k].IsChildAt p k := by
    have hk' : k < p.node.children.length := by simpa [children] using hk
    simp [IsChildAt, children, List.getElem?_eq_getElem hk']
  exact ⟨p, _, _, i, j, hchild i hi, hchild j hj, hlt, self_mem_subtree _, self_mem_subtree _⟩

/-- The declarations that a child adds to those of its parent: itself, if it is one, and its own. -/
def hoistedAt (c : Place) : List Place :=
  if c.isFunction then [] else if c.kind = "variable_declaration" then c :: c.hoisted else c.hoisted

theorem hoisted_eq_flatMap (p : Place) : p.hoisted = p.children.reverse.flatMap hoistedAt := by
  conv_rhs => rw [← List.attach_map_subtype_val p.children, ← List.map_reverse, List.flatMap_map]
  rw [hoisted]
  rfl

theorem mem_subtree_of_mem_hoistedAt (h : q ∈ p.hoistedAt) : q ∈ p.subtree := by
  unfold hoistedAt at h
  split at h
  · cases h
  split at h
  · obtain rfl | h := List.mem_cons.mp h
    · exact self_mem_subtree q
    · exact (opens_of_mem_hoisted h).mem_subtree
  · exact (opens_of_mem_hoisted h).mem_subtree

theorem ne_of_mem_hoisted (h : q ∈ p.hoisted) : q ≠ p := by
  intro heq
  obtain ⟨⟨c, hc, -, hway⟩, -⟩ := mem_hoisted_iff.mp h
  have hchild := sizeOf_node_lt hc
  have hbelow := sizeOf_le_of_mem_subtree hway.mem_subtree
  rw [heq] at hbelow
  omega

/-- After a declaration come those inside of it and those that stand before it. -/
theorem pairwise_hoisted (p : Place) :
    p.hoisted.Pairwise fun a b ↦ a ≠ b ∧ (b ∈ a.subtree ∨ b.IsBefore a) := by
  rw [hoisted_eq_flatMap, List.pairwise_flatMap]
  constructor
  -- What one child adds: the child first, and then what is inside of it.
  · intro c hc
    have hlt := sizeOf_node_lt (List.mem_reverse.mp hc)
    unfold hoistedAt
    split
    · exact .nil
    split
    · refine .cons ?_ (pairwise_hoisted c)
      intro b hb
      exact ⟨(ne_of_mem_hoisted hb).symm, .inl (opens_of_mem_hoisted hb).mem_subtree⟩
    · exact pairwise_hoisted c
  -- What two children add: the later child is walked first.
  · apply (List.pairwise_reverse.mpr (pairwise_children p)).imp
    intro later earlier hbefore a ha b hb
    have hba := hbefore.of_mem_subtree (mem_subtree_of_mem_hoistedAt hb)
      (mem_subtree_of_mem_hoistedAt ha)
    exact ⟨hba.ne.symm, .inr hba⟩
termination_by sizeOf p.node

/-- The declarators of the variables of a function or of a program, in the order in which its table
takes them up. -/
def declarators (body : Place) : List Place := body.hoisted.flatMap parts

/-- Of two declarators the one that counts: in one declaration the first, and in two the one of the
declaration that is around the other or stands after it. -/
inductive Overrides (d e : Place) : Prop
  | within {declaration : Place} :
      d ∈ declaration.parts → e ∈ declaration.parts → d.IsBefore e → Overrides d e
  | across {later earlier : Place} :
      d ∈ later.parts → e ∈ earlier.parts → later ≠ earlier →
      (earlier ∈ later.subtree ∨ earlier.IsBefore later) → Overrides d e

theorem Overrides.ne (h : d.Overrides e) : d ≠ e := by
  intro heq
  cases h with
  | within _ _ hbefore => exact hbefore.ne heq
  | across hd he hne _ =>
    rw [heq] at hd
    exact hne (eq_of_mem_children (mem_children_of_mem_parts hd) (mem_children_of_mem_parts he))

/-- Each declarator counts before those that are taken up after it. -/
theorem pairwise_declarators (body : Place) : body.declarators.Pairwise Overrides := by
  rw [declarators, List.pairwise_flatMap]
  constructor
  · intro declaration _
    have hparts := (pairwise_children declaration).filter fun c ↦ c.node.isNamed && c.kind != "comment"
    exact hparts.imp_of_mem fun hd he hbefore ↦ .within hd he hbefore
  · apply (pairwise_hoisted body).imp
    intro later earlier h d hd e he
    exact .across hd he h.1 h.2

/-- A declarator declares a variable, by itself or in a pattern. -/
def DeclaratorBinds (d x : Place) : Prop :=
  d.kind = "variable_declarator" ∧ ∃ pattern, d.field? "name" = some pattern ∧ pattern.Binds x

theorem DeclaratorNames.binds {keyword : String} (h : DeclaratorNames keyword d x k) :
    d.DeclaratorBinds x := by
  cases h with
  | alone hk hx hi => exact ⟨hk, x, hx, .name (.inl hi)⟩
  | pattern hk hname _ hx => exact ⟨hk, _, hname, hx⟩

/-- Only a name that stands alone has an initial value. -/
theorem DeclaratorNames.initializes {keyword : String} {b : Binding}
    (h : DeclaratorNames keyword d b.place b.kind) (value : Place) (hvalue : b.value? = some value) :
    d.Initializes b.place value := by
  obtain ⟨name, x, k⟩ := b
  cases h with
  | alone hk hx _ => exact ⟨hk, hx, hvalue⟩
  | pattern => cases hvalue

theorem DeclaratorBinds.exists_names {keyword : String} (h : d.DeclaratorBinds x) :
    ∃ k, DeclaratorNames keyword d x k := by
  obtain ⟨hk, pattern, hpattern, hx⟩ := h
  by_cases hi : pattern.kind = "identifier"
  · obtain rfl := hx.eq_of_identifier hi
    exact ⟨_, .alone hk hpattern hi⟩
  · exact ⟨_, .pattern hk hpattern hi hx⟩

theorem DeclarationNames.exists_kind (h : p.DeclarationNames x k) :
    ∃ keyword value, k = .declared keyword value := by
  obtain ⟨d, -, hnames⟩ := h
  cases hnames with
  | alone => exact ⟨_, _, rfl⟩
  | pattern => exact ⟨_, _, rfl⟩

end Place

/-- A binding of a variable that is declared with `var`. -/
def Binding.IsVar (b : Binding) : Prop :=
  ∃ declaration : Place, declaration.kind = "variable_declaration" ∧
    declaration.DeclarationNames b.place b.kind

namespace Source

open Place

variable {s : Source} {r scope body d : Place} {n : Text} {b : Binding} {bs : List Binding}

/-- A declarator declares a variable of a given name. -/
def DeclaresName (s : Source) (d : Place) (n : Text) : Prop :=
  ∃ x, d.DeclaratorBinds x ∧ s.textOf x = .ok n

/-- A declarator gives a variable of a given name an initial value. -/
def GivesValue (s : Source) (d : Place) (n : Text) : Prop :=
  s.DeclaresName d n ∧ (d.field? "value").isSome = true

/-- What is found first in what a list of places gives is found first in what one of them gives, and
those before give nothing of the name. -/
theorem exists_finds_of_gather {f : Place → Except Fault (List Binding)} {ps : List Place}
    (h : gather f ps = .ok bs) (hb : bs.find? (·.name == n) = some b) :
    ∃ before p after, ps = before ++ p :: after ∧
      (∀ q ∈ before, ∃ cs, f q = .ok cs ∧ ∀ c ∈ cs, c.name ≠ n) ∧
      ∃ cs, f p = .ok cs ∧ cs.find? (·.name == n) = some b := by
  obtain ⟨css, hcss, hflat⟩ := bind_eq_ok.mp h
  rw [← pure_eq_ok.mp hflat] at hb
  clear h hflat
  rw [mapM_eq_ok] at hcss
  induction hcss with
  | nil => cases hb
  | @cons p cs ps css hp _ ih =>
    rw [List.flatten_cons, List.find?_append, Option.or_eq_some_iff] at hb
    obtain hb | ⟨hnone, hb⟩ := hb
    · exact ⟨[], p, ps, rfl, by simp, cs, hp, hb⟩
    · obtain ⟨before, q, after, rfl, hbefore, hq⟩ := ih hb
      refine ⟨p :: before, q, after, rfl, ?_, hq⟩
      exact List.forall_mem_cons.mpr ⟨⟨cs, hp, find?_name_eq_none_iff.mp hnone⟩, hbefore⟩

/-- What a declaration with `var` declares is no name that a statement declares in its block. -/
theorem not_statementNames {declaration statement x : Place} {k : BindingKind}
    (hk : declaration.kind = "variable_declaration") (hx : declaration.DeclarationNames x k) :
    ¬s.StatementNames statement x k := by
  intro h
  obtain ⟨e, he, hek, hcarries⟩ := hx.binds.exists_carries
  have hself : x.Binds x := by
    obtain ⟨p, -, hbinds, -⟩ := hcarries
    exact hbinds.self
  obtain ⟨e', hcarries', -, hlexical⟩ := h.exists_carries hself
  obtain rfl := hcarries'.unique hcarries
  obtain ⟨hchild, hlexical⟩ := hlexical hek
  obtain rfl := eq_of_mem_children hchild he
  simp [hk] at hlexical

theorem isFunction_or_program_of_introduces {declaration x : Place} {k : BindingKind}
    (hk : declaration.kind = "variable_declaration") (hx : declaration.DeclarationNames x k)
    (h : s.Introduces scope x k) : scope.isFunction = true ∨ scope.kind = "program" := by
  cases h with
  | parameter hf | ownName hf | bodyVariable hf => exact .inl hf
  | programVariable hprogram => exact .inr hprogram
  | statement _ hnames => exact absurd hnames (not_statementNames hk hx)
  | loopVariable _ _ hlexical hnames =>
    exact absurd (.variable hlexical hnames) (not_statementNames (s := s) hk hx)
  | item hloop hleft _ hbinds =>
    obtain ⟨e, -, hek, hcarries⟩ := hx.binds.exists_carries
    have hcarries' : scope.Carries x :=
      ⟨_, mem_children_of_field? hleft, hbinds, not_binds_of_kind hloop rfl⟩
    rw [hcarries'.unique hcarries, hek] at hloop
    simp at hloop
  | caught =>
    obtain ⟨keyword, value, hkind⟩ := hx.exists_kind
    cases hkind

theorem exists_body_of_function {declaration : Place} (hx : declaration.DeclarationNames b.place b.kind)
    (hf : scope.isFunction = true) (h : s.functionBindings scope = .ok bs)
    (hb : bs.find? (·.name == n) = some b) :
    ∃ body, scope.HasBody body ∧ ∃ cs, s.hoistedBindings body = .ok cs ∧
      cs.find? (·.name == n) = some b := by
  obtain ⟨keyword, value, hkind⟩ := hx.exists_kind
  obtain ⟨parameters, hparameters, h⟩ := bind_eq_ok.mp h
  obtain ⟨own, hown, h⟩ := bind_eq_ok.mp h
  obtain ⟨hoisted, hhoisted, h⟩ := bind_eq_ok.mp h
  rw [← pure_eq_ok.mp h, List.find?_append, List.find?_append, Option.or_eq_some_iff,
    Option.or_eq_some_iff] at hb
  obtain (hb | ⟨-, hb⟩) | ⟨-, hb⟩ := hb
  · have hnames := (tabulates_pattern _ _).mem_iff _ hparameters b
    obtain ⟨q, -, -, hparameter⟩ := (hnames.mp (List.mem_of_find?_eq_some hb)).1
    simp [hkind] at hparameter
  · have hnames := (Tabulates.optional _ _).mem_iff _ hown b
    obtain ⟨-, hfunction⟩ := (hnames.mp (List.mem_of_find?_eq_some hb)).1
    simp [hkind] at hfunction
  · obtain ⟨before, body, after, hsplit, -, hfound⟩ := exists_finds_of_gather hhoisted hb
    have hbody : body ∈ ((scope.field? "body").filter (·.kind == "statement_block")).toList := by
      simp [hsplit]
    obtain ⟨hbody, hblock⟩ := Option.filter_eq_some_iff.mp (Option.mem_toList.mp hbody)
    have hopen := isFunction_eq_false_of_kind (beq_iff_eq.mp hblock) rfl
    exact ⟨body, .function hf hbody hopen, hfound⟩

theorem find?_hoisted_of_program {declaration : Place} (hk : declaration.kind = "variable_declaration")
    (hx : declaration.DeclarationNames b.place b.kind)
    (h : (do return (← s.blockBindings scope) ++ (← s.hoistedBindings scope)) = Except.ok bs)
    (hb : bs.find? (·.name == n) = some b) :
    ∃ cs, s.hoistedBindings scope = .ok cs ∧ cs.find? (·.name == n) = some b := by
  obtain ⟨own, hown, h⟩ := bind_eq_ok.mp h
  obtain ⟨hoisted, hhoisted, h⟩ := bind_eq_ok.mp h
  rw [← pure_eq_ok.mp h, List.find?_append, Option.or_eq_some_iff] at hb
  obtain hb | ⟨-, hb⟩ := hb
  · have hnames := (tabulates_block scope).mem_iff _ hown b
    obtain ⟨statement, -, hstatement⟩ := (hnames.mp (List.mem_of_find?_eq_some hb)).1
    exact absurd hstatement (not_statementNames hk hx)
  · exact ⟨hoisted, hhoisted, hb⟩

/-- A variable that is declared with `var` is found first among the hoisted declarations. -/
theorem Finds.exists_body (h : s.Finds r scope n b) (hvar : b.IsVar) :
    ∃ body, scope.HasBody body ∧ ∃ bs, s.hoistedBindings body = .ok bs ∧
      bs.find? (·.name == n) = some b := by
  obtain ⟨declaration, hk, hx⟩ := hvar
  obtain ⟨bs, hbs, hb⟩ := h.first
  unfold declarations at hbs
  split at hbs
  · rename_i hf
    exact exists_body_of_function hx hf hbs hb
  · rename_i hf
    have hprogram := (isFunction_or_program_of_introduces hk hx h.introduces.1).resolve_left hf
    rw [if_pos hprogram] at hbs
    exact ⟨scope, .program hprogram, find?_hoisted_of_program hk hx hbs hb⟩

theorem Tabulates.textOf_ne {found : Except Fault (List Binding)}
    {names : Place → BindingKind → Prop} {others : Prop} {x : Place} {k : BindingKind}
    (h : s.Tabulates found names others) (hbs : found = .ok bs) (hnone : ∀ c ∈ bs, c.name ≠ n)
    (hx : names x k) : s.textOf x ≠ .ok n := by
  intro ht
  exact hnone ⟨n, x, k⟩ ((h.mem_iff bs hbs _).mpr ⟨hx, ht⟩) rfl

/-- The declarator of a body that decides what a variable is: it declares it, and counts before all
others that declare a variable of the name. -/
structure Decides (s : Source) (body d : Place) (n : Text) (b : Binding) : Prop where
  mem : d ∈ body.declarators
  binds : d.DeclaratorBinds b.place
  initializes : ∀ value, b.value? = some value → d.Initializes b.place value
  overrides : ∀ e ∈ body.declarators, s.DeclaresName e n → e ≠ d → d.Overrides e

/-- The declarator that is taken up first decides. -/
theorem exists_decides (h : s.hoistedBindings body = .ok bs) (hb : bs.find? (·.name == n) = some b) :
    ∃ d, s.Decides body d n b := by
  obtain ⟨before, declaration, after, hsplit, hbefore, cs, hcs, hb⟩ := exists_finds_of_gather h hb
  obtain ⟨earlier, d, later, hparts, hearlier, ds, hds, hb⟩ := exists_finds_of_gather hcs hb
  have hmem := List.mem_of_find?_eq_some hb
  have hnames := (((tabulates_declarator _ d).mem_iff ds hds b).mp hmem).1
  have hdeclarators : body.declarators =
      (before.flatMap parts ++ earlier) ++ d :: (later ++ after.flatMap parts) := by
    simp [declarators, hsplit, hparts]
  have hoverrides := pairwise_declarators body
  rw [hdeclarators, List.pairwise_append, List.pairwise_cons] at hoverrides
  -- Those in front of the declarator have nothing of the name in their tables, so they do not declare
  -- it; those behind it are overridden by their place in the order alone.
  refine ⟨d, by simp [hdeclarators], hnames.binds, hnames.initializes, ?_⟩
  intro e he ⟨x, hx, htext⟩ hne
  rw [hdeclarators, List.mem_append, List.mem_append, List.mem_cons] at he
  obtain (he | he) | rfl | he := he
  · obtain ⟨other, hother, he⟩ := List.mem_flatMap.mp he
    obtain ⟨cs, hcs, hnone⟩ := hbefore other hother
    obtain ⟨k, hk⟩ := hx.exists_names
    exact absurd htext ((tabulates_declaration other).textOf_ne hcs hnone ⟨e, he, hk⟩)
  · obtain ⟨cs, hcs, hnone⟩ := hearlier e he
    obtain ⟨k, hk⟩ := hx.exists_names
    exact absurd htext ((tabulates_declarator _ e).textOf_ne hcs hnone hk)
  · exact absurd rfl hne
  · exact hoverrides.2.1.1 e he

theorem fold_name_eq_ok_iff {v : Value} (hr : r ∈ s.places) (hk : r.kind = "identifier")
    (hn : s.textOf r = .ok n) (hb : s.lookup r n = .ok (some b)) :
    s.fold r = .ok v ↔ s.isConstant b = .ok true ∧
      ∃ value, b.value? = some value ∧ s.fold value = .ok v := by
  constructor
  · intro h
    rw [fold, foldWith, rule, if_neg (Judgement.not_isWrapper_of_kind hk rfl)] at h
    simp only [hk] at h
    obtain ⟨name, hname, h⟩ := ofName_eq_ok.mp h
    obtain rfl : name = n := Except.ok.inj (hname.symm.trans hn)
    obtain ⟨hnone, -⟩ | ⟨c, value, hc, hvalue, hconstant, h⟩ := h
    · rw [hb] at hnone
      cases hnone
    · obtain rfl : c = b := Option.some.inj (Except.ok.inj (hc.symm.trans hb))
      split at h
      · have hplace := (declares_of_lookup hr hb hvalue).value_mem
        exact ⟨hconstant, value, hvalue, fold_of_derives hplace (derives_of_foldWith h)⟩
      · cases h
  · intro h
    obtain ⟨hconstant, value, hvalue, h⟩ := h
    apply fold_of_derives hr
    exact .identifier hk (.constant hn hb hvalue hconstant (derives_of_foldWith h))

/-- A variable that is declared with `var` has the initial value that the declarator gives it which
counts before all others of the name in the function or program. It is the only one there that gives
the name a value iff no declarator does that it overrides. -/
theorem redeclared_variable_folds_iff (hr : r ∈ s.places) (hk : r.kind = "identifier")
    (hn : s.textOf r = .ok n) (hb : s.lookup r n = .ok (some b)) (hvar : b.IsVar) :
    ∃ owner ∈ r.ancestors, ∃ body d, owner.HasBody body ∧ s.Decides body d n b ∧
      (∀ v, s.fold r = .ok v ↔ s.isConstant b = .ok true ∧
        ∃ value, b.value? = some value ∧ s.fold value = .ok v) ∧
      ((∀ e ∈ body.declarators, s.GivesValue e n → e = d) ↔
        ∀ e ∈ body.declarators, d.Overrides e → ¬s.GivesValue e n) := by
  obtain ⟨owner, hfinds⟩ := (lookup_eq_ok_some_iff hr).mp hb
  obtain ⟨body, hbody, bs, hbs, hfirst⟩ := hfinds.exists_body hvar
  obtain ⟨d, hdecides⟩ := exists_decides hbs hfirst
  refine ⟨owner, hfinds.around, body, d, hbody, hdecides,
    fun v ↦ fold_name_eq_ok_iff hr hk hn hb, ?_⟩
  constructor
  · intro honly e he hoverrides hgives
    exact hoverrides.ne (honly e he hgives).symm
  · intro hnone e he hgives
    by_contra hne
    exact hnone e he (hdecides.overrides e he hgives.1 hne) hgives

theorem isConstant_of_kinds {value : Option Place} (hb : b.kind = .declared "var" value)
    (h : (s.places.map Place.kind).any writingKinds.contains = false) :
    s.isConstant b = .ok true := by
  rw [isConstant_eq_ok_true_iff hb (.inr rfl), reassigned_leaves_out_iff]
  intro p hp t ht
  have hk := List.contains_iff_mem.mpr (kind_mem_of_target (.inl ht.1))
  rw [List.any_eq_true.mpr ⟨p.kind, List.mem_map_of_mem hp, hk⟩] at h
  cases h

end Source

namespace Redeclaration

/-- A variable with a word as its initial value. -/
def declarator (value : String) (start stop : Nat) : Node :=
  ⟨"variable_declarator", true, start, stop, [("name", 0), ("value", 2)],
    [.leaf "identifier" start (start + 1), .token "=" (start + 2) (start + 3),
      .leaf value (start + 4) stop]⟩

/-- The statement `n;`. -/
def use (start : Nat) : Node :=
  ⟨"expression_statement", true, start, start + 2, [],
    [.leaf "identifier" start (start + 1), .token ";" (start + 1) (start + 2)]⟩

/-- The statements `var n = true; n;`. -/
def single : Source where
  filename := "a.js"
  path := "a.js"
  bytes := (Utf8.encode? "var n = true; n;").getD []
  tree := ⟨"program", true, 0, 16, [],
    [⟨"variable_declaration", true, 0, 13, [],
      [.token "var" 0 3, declarator "true" 4 12, .token ";" 12 13]⟩,
      use 14]⟩
  hasErrors := false

/-- The statements `var n = true, n = false; n;`. -/
def together : Source where
  filename := "a.js"
  path := "a.js"
  bytes := (Utf8.encode? "var n = true, n = false; n;").getD []
  tree := ⟨"program", true, 0, 27, [],
    [⟨"variable_declaration", true, 0, 24, [],
      [.token "var" 0 3, declarator "true" 4 12, .token "," 12 13, declarator "false" 14 23,
        .token ";" 23 24]⟩,
      use 25]⟩
  hasErrors := false

/-- The statements `var n = true; var n = false; n;`. -/
def apart : Source where
  filename := "a.js"
  path := "a.js"
  bytes := (Utf8.encode? "var n = true; var n = false; n;").getD []
  tree := ⟨"program", true, 0, 31, [],
    [⟨"variable_declaration", true, 0, 13, [],
      [.token "var" 0 3, declarator "true" 4 12, .token ";" 12 13]⟩,
      ⟨"variable_declaration", true, 14, 28, [],
        [.token "var" 14 17, declarator "false" 18 27, .token ";" 27 28]⟩,
      use 29]⟩
  hasErrors := false

def statement (s : Source) (i : Nat) : Place := childAt s.root i

def declaratorAt (s : Source) (i j : Nat) : Place := childAt (statement s i) j

/-- The name in an expression statement. -/
def nameIn (s : Source) (i : Nat) : Place := childAt (statement s i) 0

/-- The variable of a declarator that names it alone. -/
def variableOf (d : Place) : Binding := ⟨"n", childAt d 0, .declared "var" (some (childAt d 2))⟩

theorem hoistedAt_eq_nil {p : Place}
    (h : (p.subtree.map Place.kind).contains "variable_declaration" = false) : p.hoistedAt = [] := by
  have hk : ∀ q ∈ p.subtree, q.kind ≠ "variable_declaration" :=
    fun _ hq ↦ Place.kind_ne_of_mem_subtree h hq
  rw [Place.hoistedAt, if_neg (hk p (Place.self_mem_subtree p)), Place.hoisted_eq_nil hk, ite_self]

theorem hoistedAt_eq_singleton {p : Place} (hk : p.kind = "variable_declaration")
    (h : (p.children.flatMap fun c ↦ c.subtree.map Place.kind).contains "variable_declaration" =
      false) : p.hoistedAt = [p] := by
  have hnone : p.hoisted = [] := by
    rw [List.eq_nil_iff_forall_not_mem]
    intro q hq
    obtain ⟨⟨c, hc, -, hway⟩, hk⟩ := Place.mem_hoisted_iff.mp hq
    have hmem : q.kind ∈ p.children.flatMap fun c ↦ c.subtree.map Place.kind :=
      List.mem_flatMap.mpr ⟨c, hc, List.mem_map_of_mem hway.mem_subtree⟩
    rw [hk, ← List.contains_iff_mem, h] at hmem
    cases hmem
  rw [Place.hoistedAt, if_neg (by simp [Place.isFunction, hk, Place.functionKinds]), if_pos hk, hnone]

/-- The declarations of a program that has nothing but these and a statement after them. -/
theorem hoisted_root {s : Source} {declarations : List Place} {use : Place}
    (hchildren : s.root.children = declarations ++ [use]) (huse : use.hoistedAt = [])
    (hdeclarations : ∀ d ∈ declarations, d.hoistedAt = [d]) :
    s.root.hoisted = declarations.reverse := by
  have hthese : declarations.reverse.flatMap Place.hoistedAt =
      declarations.reverse.flatMap fun d ↦ [d] :=
    List.flatMap_congr fun d hd ↦ hdeclarations d (List.mem_reverse.mp hd)
  rw [Place.hoisted_eq_flatMap, hchildren, List.reverse_append, List.flatMap_append, hthese]
  simp [huse]

theorem hoisted_single : single.root.hoisted = [statement single 0] := by
  have hchildren : single.root.children = [statement single 0] ++ [statement single 1] := rfl
  have hdeclaration : (statement single 0).hoistedAt = [statement single 0] :=
    hoistedAt_eq_singleton rfl (by cbv)
  exact hoisted_root hchildren (hoistedAt_eq_nil (by cbv)) (by simpa)

theorem hoisted_together : together.root.hoisted = [statement together 0] := by
  have hchildren : together.root.children = [statement together 0] ++ [statement together 1] := rfl
  have hdeclaration : (statement together 0).hoistedAt = [statement together 0] :=
    hoistedAt_eq_singleton rfl (by cbv)
  exact hoisted_root hchildren (hoistedAt_eq_nil (by cbv)) (by simpa)

theorem hoisted_apart : apart.root.hoisted = [statement apart 1, statement apart 0] := by
  have hchildren : apart.root.children =
      [statement apart 0, statement apart 1] ++ [statement apart 2] := rfl
  have hfirst : (statement apart 0).hoistedAt = [statement apart 0] :=
    hoistedAt_eq_singleton rfl (by cbv)
  have hsecond : (statement apart 1).hoistedAt = [statement apart 1] :=
    hoistedAt_eq_singleton rfl (by cbv)
  exact hoisted_root hchildren (hoistedAt_eq_nil (by cbv)) (by simp [hfirst, hsecond])

theorem declarators_single : single.root.declarators = [declaratorAt single 0 1] := by
  rw [Place.declarators, hoisted_single]
  rfl

theorem declarators_together :
    together.root.declarators = [declaratorAt together 0 1, declaratorAt together 0 3] := by
  rw [Place.declarators, hoisted_together]
  rfl

theorem declarators_apart :
    apart.root.declarators = [declaratorAt apart 1 1, declaratorAt apart 0 1] := by
  rw [Place.declarators, hoisted_apart]
  rfl

theorem gather_eq_nil {f : Place → Except Fault (List Binding)} {ps : List Place}
    (h : ∀ p ∈ ps, f p = .ok []) : Source.gather f ps = .ok [] := by
  induction ps with
  | nil => rfl
  | cons p ps ih =>
    obtain ⟨hp, hps⟩ := List.forall_mem_cons.mp h
    obtain ⟨css, hcss, hflat⟩ := bind_eq_ok.mp (ih hps)
    rw [Source.gather, List.mapM_cons, hp, hcss]
    exact hflat

/-- The kinds of the statements of the programs. -/
def statementKinds : List String := ["variable_declaration", "expression_statement"]

theorem blockBindings_eq_nil {s : Source} {block : Place}
    (h : ∀ q ∈ block.parts, q.kind ∈ statementKinds) : s.blockBindings block = .ok [] := by
  apply gather_eq_nil
  intro p hp
  obtain ⟨q, hq, hexported⟩ := List.mem_filterMap.mp hp
  have hk := h q hq
  simp only [statementKinds, List.mem_cons, List.not_mem_nil, or_false] at hk
  rw [Source.exported?, if_neg (by obtain hk | hk := hk <;> simp [hk])] at hexported
  obtain rfl := Option.some.inj hexported
  obtain hk | hk := hk <;> simp [Source.statementBindings, hk]

/-- A name in a program that declares variables with `var` only. -/
theorem lookup_hoisted {s : Source} {r : Place} {n : Text} {b : Binding} {bss : List (List Binding)}
    (hk : s.root.kind = "program") (hscopes : r.ancestors.filter Place.isScope = [s.root])
    (hparts : ∀ q ∈ s.root.parts, q.kind ∈ statementKinds)
    (hbss : s.root.hoisted.mapM s.declarationBindings = .ok bss)
    (hb : bss.flatten.find? (·.name == n) = some b) : s.lookup r n = .ok (some b) := by
  have hdeclarations : s.declarations s.root = .ok bss.flatten := by
    have hf : s.root.isFunction = false := Place.isFunction_eq_false_of_kind hk rfl
    rw [Source.declarations, if_neg (by simp [hf]), if_pos hk, blockBindings_eq_nil hparts,
      Source.hoistedBindings, Source.gather, hbss]
    rfl
  rw [Source.lookup, hscopes, Source.lookupIn, hdeclarations, ok_bind]
  simp only [hb]
  rfl

theorem lookup_single :
    single.lookup (nameIn single 1) "n" = .ok (some (variableOf (declaratorAt single 0 1))) := by
  have hbss : single.root.hoisted.mapM single.declarationBindings =
      .ok [[variableOf (declaratorAt single 0 1)]] := by
    rw [hoisted_single]
    cbv
  exact lookup_hoisted rfl (by cbv) (by decide) hbss rfl

theorem lookup_together : together.lookup (nameIn together 1) "n" =
    .ok (some (variableOf (declaratorAt together 0 1))) := by
  have hbss : together.root.hoisted.mapM together.declarationBindings =
      .ok [[variableOf (declaratorAt together 0 1), variableOf (declaratorAt together 0 3)]] := by
    rw [hoisted_together]
    cbv
  exact lookup_hoisted rfl (by cbv) (by decide) hbss rfl

theorem lookup_apart :
    apart.lookup (nameIn apart 2) "n" = .ok (some (variableOf (declaratorAt apart 1 1))) := by
  have hbss : apart.root.hoisted.mapM apart.declarationBindings =
      .ok [[variableOf (declaratorAt apart 1 1)], [variableOf (declaratorAt apart 0 1)]] := by
    rw [hoisted_apart]
    cbv
  exact lookup_hoisted rfl (by cbv) (by decide) hbss rfl

theorem nameIn_mem {s : Source} {i : Nat} (hstatement : s.root.children[i]? = some (statement s i))
    (hname : (statement s i).children[0]? = some (nameIn s i)) : nameIn s i ∈ s.places :=
  Source.mem_places_of_mem_children
    (Source.mem_places_of_mem_children (Place.self_mem_subtree s.root)
      (List.mem_of_getElem? hstatement))
    (List.mem_of_getElem? hname)

theorem isVar_of_mem_parts {declaration d : Place} (hk : declaration.kind = "variable_declaration")
    (hd : d ∈ declaration.parts) (hdk : d.kind = "variable_declarator")
    (hname : d.field? "name" = some (childAt d 0)) (hi : (childAt d 0).kind = "identifier")
    (hvalue : d.field? "value" = some (childAt d 2)) : (variableOf d).IsVar := by
  have hkeyword : Source.keywordOf declaration = "var" := by rw [Source.keywordOf, if_pos hk]
  refine ⟨declaration, hk, d, hd, ?_⟩
  rw [hkeyword, variableOf, ← hvalue]
  exact .alone hdk hname hi

/-- The one declarator gives the variable its value. -/
theorem single_has_one_value :
    nameIn single 1 ∈ single.places ∧ (nameIn single 1).kind = "identifier" ∧
      single.textOf (nameIn single 1) = .ok "n" ∧
      single.lookup (nameIn single 1) "n" = .ok (some (variableOf (declaratorAt single 0 1))) ∧
      (variableOf (declaratorAt single 0 1)).IsVar ∧
      single.fold (nameIn single 1) = .ok (.bool true) ∧
      ∀ e ∈ single.root.declarators, single.GivesValue e "n" → e = declaratorAt single 0 1 := by
  have hplace : nameIn single 1 ∈ single.places := nameIn_mem rfl rfl
  have htext : single.textOf (nameIn single 1) = .ok "n" := by cbv
  have hdeclarator : declaratorAt single 0 1 ∈ (statement single 0).parts := List.mem_cons_self
  have hvar : (variableOf (declaratorAt single 0 1)).IsVar :=
    isVar_of_mem_parts rfl hdeclarator rfl rfl rfl rfl
  obtain ⟨owner, howner, body, d, hbody, hdecides, hfold, honly⟩ :=
    Source.redeclared_variable_folds_iff hplace rfl htext lookup_single hvar
  have hconstant : single.isConstant (variableOf (declaratorAt single 0 1)) = .ok true :=
    Source.isConstant_of_kinds rfl (by cbv)
  refine ⟨hplace, rfl, htext, lookup_single, hvar,
    (hfold _).mpr ⟨hconstant, _, rfl, Source.fold_literal (.head _)⟩, ?_⟩
  -- No other body than the program is around the name.
  have hroot : body = single.root := by
    have hancestors : (nameIn single 1).ancestors = [statement single 1, single.root] := rfl
    simp only [hancestors, List.mem_cons, List.not_mem_nil, or_false] at howner
    obtain rfl | rfl := howner
    · cases hbody with
      | program hk => exact absurd hk (by decide)
      | function hf => exact absurd hf (by decide)
    · cases hbody with
      | program _ => rfl
      | function hf => exact absurd hf (by decide)
  have hmem := hdecides.mem
  rw [hroot, declarators_single] at hmem honly
  rw [List.mem_singleton.mp hmem] at honly
  rw [declarators_single]
  apply honly.mpr
  intro e he hoverrides
  exact absurd (List.mem_singleton.mp he).symm hoverrides.ne

theorem givesValue_of_name {s : Source} {d : Place} (hk : d.kind = "variable_declarator")
    (hname : d.field? "name" = some (childAt d 0)) (hi : (childAt d 0).kind = "identifier")
    (htext : s.textOf (childAt d 0) = .ok "n") (hvalue : (d.field? "value").isSome = true) :
    s.GivesValue d "n" :=
  ⟨⟨childAt d 0, ⟨hk, childAt d 0, hname, .name (.inl hi)⟩, htext⟩, hvalue⟩

/-- Where nothing is assigned to, a name has the value of the declarator that it is looked up to. -/
theorem fold_variable {s : Source} {r d : Place} {v : Value} (hr : r ∈ s.places)
    (hk : r.kind = "identifier") (htext : s.textOf r = .ok "n")
    (hlookup : s.lookup r "n" = .ok (some (variableOf d)))
    (hwrites : (s.places.map Place.kind).any Source.writingKinds.contains = false)
    (hvalue : s.fold (childAt d 2) = .ok v) : s.fold r = .ok v :=
  (Source.fold_name_eq_ok_iff hr hk htext hlookup).mpr
    ⟨Source.isConstant_of_kinds rfl hwrites, _, rfl, hvalue⟩

/-- Of two initial values the first counts if they stand together, and the second if they stand
apart. -/
theorem redeclared_folds_though_ambiguous :
    (together.lookup (nameIn together 1) "n" = .ok (some (variableOf (declaratorAt together 0 1))) ∧
      (variableOf (declaratorAt together 0 1)).IsVar ∧
      together.fold (nameIn together 1) = .ok (.bool true) ∧
      ∃ e ∈ together.root.declarators, together.GivesValue e "n" ∧ e ≠ declaratorAt together 0 1) ∧
    (apart.lookup (nameIn apart 2) "n" = .ok (some (variableOf (declaratorAt apart 1 1))) ∧
      (variableOf (declaratorAt apart 1 1)).IsVar ∧
      apart.fold (nameIn apart 2) = .ok (.bool false) ∧
      ∃ e ∈ apart.root.declarators, apart.GivesValue e "n" ∧ e ≠ declaratorAt apart 1 1) := by
  have htogether : declaratorAt together 0 1 ∈ (statement together 0).parts := List.mem_cons_self
  have hapart : declaratorAt apart 1 1 ∈ (statement apart 1).parts := List.mem_cons_self
  refine ⟨⟨lookup_together, isVar_of_mem_parts rfl htogether rfl rfl rfl rfl, ?_,
      declaratorAt together 0 3, by simp [declarators_together],
      givesValue_of_name rfl rfl rfl (by cbv) rfl, ?_⟩,
    lookup_apart, isVar_of_mem_parts rfl hapart rfl rfl rfl rfl, ?_,
      declaratorAt apart 0 1, by simp [declarators_apart],
      givesValue_of_name rfl rfl rfl (by cbv) rfl, ?_⟩
  · exact fold_variable (nameIn_mem rfl rfl) rfl (by cbv) lookup_together (by cbv)
      (Source.fold_literal (.head _))
  · exact fun heq ↦ absurd (congrArg Place.path heq) (by decide)
  · exact fold_variable (nameIn_mem rfl rfl) rfl (by cbv) lookup_apart (by cbv)
      (Source.fold_literal (.tail _ (.head _)))
  · exact fun heq ↦ absurd (congrArg Place.path heq) (by decide)

end Redeclaration

end MessageExtraction
