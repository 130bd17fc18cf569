import MessageExtraction.Proofs.Scope.Declarators

namespace MessageExtraction

namespace Place

/-- What is assigned to gives a value to a name: it is the name, stands in parentheses around it, or
is a pattern with a part that gives the name a value. -/
inductive Assigns : Place → Place → Prop
  | name {t : Place} :
      t.kind = "identifier" ∨ t.kind = "shorthand_property_identifier_pattern" → Assigns t t
  | parenthesized {t inner x : Place} :
      t.kind = "parenthesized_expression" → t.parts.head? = some inner → Assigns inner x →
      Assigns t x
  | field {t inner x : Place} {name : String} :
      boundField? t.kind = some name → t.field? name = some inner → Assigns inner x → Assigns t x
  | part {t c x : Place} :
      t.kind ∈ compoundPatterns → c ∈ t.parts → Assigns c x → Assigns t x

theorem Assigns.eq_of_identifier {t x : Place} (h : t.Assigns x) (ht : t.kind = "identifier") :
    x = t := by
  cases h with
  | name _ => rfl
  | parenthesized hk _ _ => simp [ht] at hk
  | field hf _ _ => simp [ht, boundField?] at hf
  | part hk _ _ => simp [ht, compoundPatterns] at hk

/-- The words that declare the head of a loop. -/
def headKeywords : List String := ["const", "let", "var"]

/-- What a loop over the items or keys of an object assigns to, if its head declares nothing. -/
def loopTarget? (p : Place) : Option Place :=
  if p.kind = "for_in_statement" ∧ ∀ c ∈ p.children, c.kind ∉ headKeywords then p.field? "left"
  else none

end Place

namespace Source

variable {s : Source} {p : Place} {b : Binding} {name : Text}

/-- A node writes a variable: an assignment, an increment, a decrement, or a loop whose head
declares nothing. -/
def Writes (s : Source) (p : Place) (name : Text) : Prop :=
  ∃ t x, (assigned? p = some t ∨ p.loopTarget? = some t) ∧ t.Assigns x ∧ s.textOf x = .ok name

/-- A node assigns to a name that stands alone. -/
def AssignsName (p t : Place) : Prop := assigned? p = some t ∧ t.kind = "identifier"

/-- A node writes a variable from within parentheses or a pattern, or by the head of a loop. -/
def WritesIndirectly (s : Source) (p : Place) (name : Text) : Prop :=
  ∃ t x, (assigned? p = some t ∧ t.kind ≠ "identifier" ∨ p.loopTarget? = some t) ∧
    t.Assigns x ∧ s.textOf x = .ok name

theorem writes_iff : s.Writes p name ↔
    (∃ t, AssignsName p t ∧ s.textOf t = .ok name) ∨ s.WritesIndirectly p name := by
  constructor
  · rintro ⟨t, x, ht | ht, hx, hname⟩
    · by_cases hk : t.kind = "identifier"
      · obtain rfl := hx.eq_of_identifier hk
        exact .inl ⟨x, ⟨ht, hk⟩, hname⟩
      · exact .inr ⟨t, x, .inl ⟨ht, hk⟩, hx, hname⟩
    · exact .inr ⟨t, x, .inr ht, hx, hname⟩
  · rintro (⟨t, ⟨ht, hk⟩, hname⟩ | ⟨t, x, ht | ht, hx, hname⟩)
    · exact ⟨t, t, .inl ht, .name (.inl hk), hname⟩
    · exact ⟨t, x, .inl ht.1, hx, hname⟩
    · exact ⟨t, x, .inr ht, hx, hname⟩

/-- The kinds of nodes that may write a variable. -/
def writingKinds : List String :=
  ["assignment_expression", "augmented_assignment_expression", "update_expression",
    "for_in_statement"]

theorem kind_mem_of_target {t : Place} (h : assigned? p = some t ∨ p.loopTarget? = some t) :
    p.kind ∈ writingKinds := by
  obtain h | h := h
  · rw [assigned?] at h
    split at h <;> simp_all [writingKinds]
  · rw [Place.loopTarget?] at h
    split at h <;> simp_all [writingKinds]

theorem mem_assignedNames_iff {t : Place} :
    t ∈ (s.places.filterMap assigned?).filter (·.kind == "identifier") ↔
      ∃ p ∈ s.places, AssignsName p t := by
  rw [List.mem_filter, List.mem_filterMap, beq_iff_eq]
  constructor
  · rintro ⟨⟨p, hp, ht⟩, hk⟩
    exact ⟨p, hp, ht, hk⟩
  · rintro ⟨p, hp, ht, hk⟩
    exact ⟨⟨p, hp, ht⟩, hk⟩

/-- The names found to be assigned to leave one out iff each name that is assigned to alone can be
read and is another. -/
theorem reassigned_leaves_out_iff : (∃ names, s.reassigned = .ok names ∧ name ∉ names) ↔
    ∀ p ∈ s.places, ∀ t, AssignsName p t → ∃ other, s.textOf t = .ok other ∧ other ≠ name := by
  have hmem : ∀ names : List Text, name ∉ names ↔ ∀ other ∈ names, other ≠ name :=
    fun names ↦ ⟨fun h other ho he ↦ h (he ▸ ho), fun h hn ↦ h name hn rfl⟩
  simp only [reassigned, hmem, mapM_ok_forall_iff, mem_assignedNames_iff]
  exact ⟨fun h p hp t ht ↦ h t ⟨p, hp, ht⟩, fun h t ⟨p, hp, ht⟩ ↦ h p hp t ht⟩

theorem isConstant_eq_ok_true_iff {keyword : String} {value : Option Place}
    (hb : b.kind = .declared keyword value) (hk : keyword = "let" ∨ keyword = "var") :
    s.isConstant b = .ok true ↔ ∃ names, s.reassigned = .ok names ∧ b.name ∉ names := by
  have hconstant : s.isConstant b = do return !(← s.reassigned).contains b.name := by
    obtain rfl | rfl := hk <;> simp only [isConstant, hb]
  simp only [hconstant, bind_eq_ok, pure_eq_ok, Bool.not_eq_true', List.contains_eq_mem,
    decide_eq_false_iff_not]

/-- A variable counts as constant iff each name that is assigned to alone can be read and is another
name. It is then written nowhere iff no write of it comes from within parentheses or a pattern, or
from the head of a loop. -/
theorem constant_unwritten_iff {keyword : String} {value : Option Place}
    (hb : b.kind = .declared keyword value) (hk : keyword = "let" ∨ keyword = "var") :
    (s.isConstant b = .ok true ↔
      ∀ p ∈ s.places, ∀ t, AssignsName p t → ∃ other, s.textOf t = .ok other ∧ other ≠ b.name) ∧
    (s.isConstant b = .ok true →
      ((∀ p ∈ s.places, ¬s.Writes p b.name) ↔ ∀ p ∈ s.places, ¬s.WritesIndirectly p b.name)) := by
  have hconstant := (isConstant_eq_ok_true_iff (s := s) hb hk).trans reassigned_leaves_out_iff
  refine ⟨hconstant, fun h ↦ ⟨fun hw p hp hi ↦ hw p hp (writes_iff.mpr (.inr hi)), ?_⟩⟩
  intro hindirect p hp hw
  obtain ⟨t, ht, hname⟩ | hi := writes_iff.mp hw
  · obtain ⟨other, hother, hne⟩ := hconstant.mp h p hp t ht
    rw [hname] at hother
    exact hne (Except.ok.inj hother).symm
  · exact hindirect p hp hi

end Source

namespace ParenthesizedTarget

def nameA : Node := .leaf "identifier" 4 5

def one : Node := .leaf "number" 8 9

def declareA : Node :=
  ⟨"variable_declarator", true, 4, 9, [("name", 0), ("value", 2)],
    [nameA, .token "=" 6 7, one]⟩

def letA : Node :=
  ⟨"lexical_declaration", true, 0, 10, [],
    [.token "let" 0 3, declareA, .token ";" 9 10]⟩

def parenthesizedName : Node :=
  ⟨"parenthesized_expression", true, 11, 14, [],
    [.token "(" 11 12, .leaf "identifier" 12 13,
      .token ")" 13 14]⟩

def assignTwo : Node :=
  ⟨"assignment_expression", true, 11, 18, [("left", 0), ("right", 2)],
    [parenthesizedName, .token "=" 15 16, .leaf "number" 17 18]⟩

def assignStatement : Node :=
  ⟨"expression_statement", true, 11, 19, [], [assignTwo, .token ";" 18 19]⟩

def nameP : Node := .leaf "identifier" 26 27

def useA : Node := .leaf "identifier" 30 31

def declareP : Node :=
  ⟨"variable_declarator", true, 26, 31, [("name", 0), ("value", 2)],
    [nameP, .token "=" 28 29, useA]⟩

def constP : Node :=
  ⟨"lexical_declaration", true, 20, 32, [],
    [.token "const" 20 25, declareP, .token ";" 31 32]⟩

def program : Node := ⟨"program", true, 0, 32, [], [letA, assignStatement, constP]⟩

/-- The statements `let A = 1; (A) = 2; const p = A;` with a given letter in the parentheses. -/
def source (letter : UInt8) : Source where
  filename := "a.js"
  path := "a.js"
  bytes := (Utf8.encode? "let A = 1; (").getD [] ++ letter ::
    (Utf8.encode? ") = 2; const p = A;").getD []
  tree := program
  hasErrors := false

def reassignment : Place := ⟨assignTwo, [(assignStatement, 0), (program, 1)]⟩

def target : Place := ⟨parenthesizedName, (assignTwo, 0) :: reassignment.above⟩

def targetName : Place :=
  ⟨.leaf "identifier" 12 13, (parenthesizedName, 1) :: target.above⟩

theorem writers_eq (letter : UInt8) :
    (source letter).places.filter (Source.writingKinds.contains ·.kind) =
      [reassignment] := by
  cbv

theorem assigned?_reassignment : Source.assigned? reassignment = some target := rfl

theorem loopTarget?_reassignment : reassignment.loopTarget? = none := rfl

theorem target_eq {letter : UInt8} {p t : Place} (hp : p ∈ (source letter).places)
    (ht : Source.assigned? p = some t ∨ p.loopTarget? = some t) : t = target := by
  have hmem : p ∈ [reassignment] := by
    rw [← writers_eq letter, List.mem_filter, List.contains_iff_mem]
    exact ⟨hp, Source.kind_mem_of_target ht⟩
  rw [List.mem_singleton.mp hmem, assigned?_reassignment, loopTarget?_reassignment] at ht
  obtain ht | ht := ht
  · exact (Option.some.inj ht).symm
  · cases ht

theorem isConstant_of_let (letter : UInt8) (b : Binding) (value : Option Place)
    (hb : b.kind = .declared "let" value) : (source letter).isConstant b = .ok true := by
  rw [Source.isConstant_eq_ok_true_iff hb (.inl rfl), Source.reassigned_leaves_out_iff]
  intro p hp t ht
  have hk := ht.2
  rw [target_eq hp (.inl ht.1)] at hk
  exact absurd hk (by decide)

theorem eq_of_assigns_target {x : Place} (h : target.Assigns x) :
    x = targetName := by
  cases h with
  | name hk => exact absurd hk (by decide)
  | parenthesized _ hinner hx =>
    obtain rfl : targetName = _ := Option.some.inj hinner
    exact hx.eq_of_identifier rfl
  | field hf _ _ => cases hf
  | part hk _ _ => exact absurd hk (by decide)

/-- The variable `A`. -/
def variableA : Binding :=
  let above := [(letA, 1), (program, 0)]
  ⟨"A", ⟨nameA, (declareA, 0) :: above⟩, .declared "let" (some ⟨one, (declareA, 2) :: above⟩)⟩

/-- The use of `A` in the last statement. -/
def useOfA : Place := ⟨useA, [(declareP, 2), (constP, 1), (program, 2)]⟩

def constantP : Binding :=
  ⟨"p", ⟨nameP, (declareP, 0) :: useOfA.above.tail⟩, .declared "const" (some useOfA)⟩

theorem statementBindings_letA (letter : UInt8) : (source letter).statementBindings
    ⟨letA, [(program, 0)]⟩ = .ok [variableA] := by
  cbv

theorem statementBindings_constP (letter : UInt8) : (source letter).statementBindings
    ⟨constP, [(program, 2)]⟩ = .ok [constantP] := by
  cbv

theorem statementBindings_assignStatement (letter : UInt8) :
    (source letter).statementBindings
      ⟨assignStatement, [(program, 1)]⟩ = .ok [] := rfl

theorem hoisted_program : (Place.root program).hoisted = [] :=
  Place.hoisted_eq_nil fun _ hq ↦ Place.kind_ne_of_mem_subtree (by cbv) hq

theorem declarations_program (letter : UInt8) :
    (source letter).declarations (.root program) =
      .ok [variableA, constantP] := by
  have hparts : (Place.root program).parts.filterMap Source.exported? =
      [⟨letA, [(program, 0)]⟩, ⟨assignStatement, [(program, 1)]⟩,
        ⟨constP, [(program, 2)]⟩] := rfl
  have hblock : (source letter).blockBindings (.root program) =
      .ok [variableA, constantP] := by
    rw [Source.blockBindings, hparts, Source.gather, List.mapM_cons, statementBindings_letA,
      List.mapM_cons, statementBindings_assignStatement, List.mapM_cons, statementBindings_constP]
    rfl
  rw [Source.declarations, if_neg (by decide), if_pos (by decide), hblock, Source.hoistedBindings,
    hoisted_program]
  rfl

theorem lookupNode_useOfA (letter : UInt8) :
    (source letter).lookupNode useOfA = .ok (some variableA) := by
  have hscopes : useOfA.ancestors.filter Place.isScope = [.root program] := by cbv
  have htext : (source letter).textOf useOfA = .ok "A" := by cbv
  simp only [Source.lookupNode, htext, Source.lookup, hscopes, Source.lookupIn]
  rw [declarations_program]
  rfl

theorem reassignment_mem (letter : UInt8) : reassignment ∈ (source letter).places := by
  have h : reassignment ∈ [reassignment] := List.mem_singleton_self _
  rw [← writers_eq letter] at h
  exact List.mem_of_mem_filter h

/-- With another name in the parentheses the variable is constant and written nowhere. -/
theorem unwritten_of_other_name :
    variableA.kind = .declared "let" variableA.value? ∧
    (source 0x42).isConstant variableA = .ok true ∧
    ∀ p ∈ (source 0x42).places, ¬(source 0x42).Writes p variableA.name := by
  have hconstant := isConstant_of_let 0x42 variableA _ rfl
  have h := Source.constant_unwritten_iff (s := source 0x42) (b := variableA) rfl
    (.inl rfl)
  refine ⟨rfl, hconstant, (h.2 hconstant).mpr ?_⟩
  intro p hp ⟨t, x, ht, hx, hname⟩
  have htarget : t = target := target_eq hp (ht.imp_left And.left)
  rw [htarget] at hx
  have htext : (source 0x42).textOf targetName = .ok "B" := by cbv
  rw [eq_of_assigns_target hx, htext] at hname
  cases hname

/-- The variable counts as constant, and an assignment with a target in parentheses writes it. -/
theorem written_though_constant :
    (source 0x41).lookupNode useOfA = .ok (some variableA) ∧
    variableA.kind = .declared "let" variableA.value? ∧
    (source 0x41).isConstant variableA = .ok true ∧
    ∃ p ∈ (source 0x41).places, (source 0x41).Writes p variableA.name := by
  refine ⟨lookupNode_useOfA _, rfl, isConstant_of_let _ _ _ rfl, ?_⟩
  have hassigns : target.Assigns targetName :=
    .parenthesized rfl rfl (.name (.inl rfl))
  exact ⟨reassignment, reassignment_mem _, target, targetName,
    .inl assigned?_reassignment, hassigns, by cbv⟩

end ParenthesizedTarget

end MessageExtraction
