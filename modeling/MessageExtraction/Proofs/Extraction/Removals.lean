import MessageExtraction.Proofs.Extraction.Descriptions
import MessageExtraction.Proofs.Extraction.Splicing
import MessageExtraction.Proofs.Extraction.Traversal
import MessageExtraction.Proofs.Tree.Spans

/-!
What a traverse takes out of a source: the descriptions of the elements it extracts, each with the
gap before it. They are all that is missing unless one of them stands in another.
-/

namespace MessageExtraction

namespace Extraction

variable {s : Source} {r a b c d : Place} {i j : Nat}

theorem removalOf_snd (p : Place) : (removalOf p).2 = p.node.stop := rfl

/-- What is removed with a child starts where the child before it ends. -/
theorem removalOf_fst_cases (h : b.IsChildAt r j) :
    j = 0 ∧ (removalOf b).1 = b.node.start ∨
      ∃ i n, j = i + 1 ∧ r.node.children[i]? = some n ∧ (removalOf b).1 = n.stop := by
  obtain ⟨hnode, habove⟩ := h
  cases j with
  | zero =>
    left
    rw [removalOf, Place.previous?, habove]
    exact ⟨rfl, rfl⟩
  | succ i =>
    right
    have hi : i < r.node.children.length := by
      have := (List.getElem?_eq_some_iff.mp hnode).1
      omega
    refine ⟨i, r.node.children[i], rfl, List.getElem?_eq_getElem hi, ?_⟩
    simp [removalOf, Place.previous?, habove, Place.children, hi]

end Extraction

namespace Source.InOrder

open Extraction

variable {s : Source} {r a b c d : Place} {i j : Nat}

theorem removalOf_le_start (hs : s.InOrder) (hb : b ∈ s.places) :
    (removalOf b).1 ≤ b.node.start := by
  obtain rfl | ⟨r, hr, hchild⟩ := Place.subtree_cases hb
  · exact Nat.le_refl _
  · obtain ⟨j, hj⟩ := Place.mem_children_iff.mp hchild
    obtain ⟨-, hstart⟩ | ⟨i, n, rfl, hn, hstart⟩ := removalOf_fst_cases hj
    · exact Nat.le_of_eq hstart
    · rw [hstart]
      exact (hs r hr).stop_le_start hn hj.1 (Nat.lt_succ_self i)

theorem removalOf_forward (hs : s.InOrder) (hb : b ∈ s.places) :
    (removalOf b).1 ≤ (removalOf b).2 :=
  Nat.le_trans (hs.removalOf_le_start hb) (hs b hb).forward

theorem start_le_removalOf (hs : s.InOrder) (hr : r ∈ s.places) (hb : b ∈ r.children) :
    r.node.start ≤ (removalOf b).1 := by
  obtain ⟨j, hj⟩ := Place.mem_children_iff.mp hb
  obtain ⟨-, hstart⟩ | ⟨i, n, -, hn, hstart⟩ := removalOf_fst_cases hj
  · rw [hstart]
    exact ((hs r hr).inside _ (Place.node_mem_of_mem_children hb)).1
  · have hmem : n ∈ r.node.children := List.mem_of_getElem? hn
    have hinside := (hs r hr).inside n hmem
    have hforward := (hs.of_mem_children hr hmem).forward
    omega

/-- What is removed with something strictly below a place lies in the place. -/
theorem start_le_removalOf_of_mem (hs : s.InOrder) (ha : a ∈ s.places) (hb : b ∈ a.subtree)
    (hne : b ≠ a) : a.node.start ≤ (removalOf b).1 := by
  obtain rfl | ⟨r, hr, hchild⟩ := Place.subtree_cases hb
  · exact absurd rfl hne
  · have hwithin := hs.within ha hr
    have := hs.start_le_removalOf (Place.mem_subtree_trans ha hr) hchild
    omega

theorem stop_le_removalOf_of_lt (hs : s.InOrder) (hr : r ∈ s.places) (hc : c.IsChildAt r i)
    (hd : d.IsChildAt r j) (hij : i < j) : c.node.stop ≤ (removalOf d).1 := by
  obtain ⟨rfl, -⟩ | ⟨k, n, rfl, hn, hstart⟩ := removalOf_fst_cases hd
  · omega
  · rw [hstart]
    by_cases hik : i = k
    · rw [← hik, hc.1, Option.some.injEq] at hn
      exact Nat.le_of_eq (congrArg Node.stop hn)
    · have hbefore := (hs r hr).stop_le_start hc.1 hn (by omega)
      have hforward := (hs.of_mem_children hr (List.mem_of_getElem? hn)).forward
      omega

/-- What is removed with something below a place starts behind all that is below an earlier child of
the same parent. -/
theorem stop_le_removalOf (hs : s.InOrder) (hr : r ∈ s.places) (hc : c.IsChildAt r i)
    (hd : d.IsChildAt r j) (hij : i < j) (ha : a ∈ c.subtree) (hb : b ∈ d.subtree) :
    a.node.stop ≤ (removalOf b).1 := by
  have hcp : c ∈ s.places := mem_places_of_mem_children hr hc.mem_children
  have hdp : d ∈ s.places := mem_places_of_mem_children hr hd.mem_children
  have hwithin := hs.within hcp ha
  by_cases hbd : b = d
  · have := hs.stop_le_removalOf_of_lt hr hc hd hij
    rw [hbd]
    omega
  · have hbefore := (hs r hr).stop_le_start hc.1 hd.1 hij
    have hstart := hs.start_le_removalOf_of_mem hdp hb hbd
    omega

/-- Two nodes share no byte that is removed with them unless one is below the other. -/
theorem nested_of_shared (hs : s.InOrder) (ha : a ∈ s.places) (hb : b ∈ s.places)
    (hai : covers (removalOf a) i = true) (hbi : covers (removalOf b) i = true) :
    a ∈ b.subtree ∨ b ∈ a.subtree := by
  rw [covers_iff] at hai hbi
  obtain h | h | ⟨r, hr, c, hc, d, hd, hne, hac, hbd⟩ := Place.nested_or_apart ha hb
  · exact .inl h
  · exact .inr h
  · obtain ⟨j, hcj⟩ := Place.mem_children_iff.mp hc
    obtain ⟨k, hdk⟩ := Place.mem_children_iff.mp hd
    have hjk : j ≠ k := by
      rintro rfl
      exact hne (Place.IsChildAt.eq_of_eq hcj hdk)
    obtain hlt | hlt := Nat.lt_or_gt_of_ne hjk
    · have := hs.stop_le_removalOf hr hcj hdk hlt hac hbd
      rw [removalOf_snd] at hai
      omega
    · have := hs.stop_le_removalOf hr hdk hcj hlt hbd hac
      rw [removalOf_snd] at hbi
      omega

end Source.InOrder

namespace Source

open Extraction

variable {s : Source} {o : Options}

/-- The spans of the descriptions, each with the gap before it. -/
def describedSpans (s : Source) (o : Options) : List (Nat × Nat) := (s.descriptions o).map removalOf

/-- The source without its descriptions and the gaps before them. -/
def undescribed (s : Source) (o : Options) : Bytes := keptFrom (s.describedSpans o) 0 s.bytes

/-- Behind a description that another one stands in, with a span of its own, no byte is left. -/
def NothingLeftBehindNested (s : Source) (o : Options) : Prop :=
  ∀ a ∈ s.descriptions o, ∀ b ∈ s.descriptions o, b ∈ a.subtree → removalOf b ≠ removalOf a →
    (removalOf b).1 < (removalOf b).2 →
    ∀ i, a.node.stop ≤ i → i < s.bytes.length → isCovered (s.describedSpans o) i = true

theorem InOrder.untangled_iff (hs : s.InOrder) (o : Options) :
    Untangled (s.describedSpans o) s.bytes.length ↔ s.NothingLeftBehindNested o := by
  constructor
  · intro h a ha b hb hba hne hnonempty
    have hap := mem_places_of_mem_descriptions ha
    have hstart := hs.removalOf_le_start hap
    have hinner := hs.start_le_removalOf_of_mem hap hba fun hab ↦ hne (congrArg removalOf hab)
    have hwithin := hs.within hap hba
    rw [removalOf_snd] at hnonempty
    -- they share the byte that what is removed with the inner one starts at
    refine h _ (List.mem_map_of_mem ha) _ (List.mem_map_of_mem hb) hne.symm
      ⟨(removalOf b).1, ?_, ?_⟩
    · rw [covers_iff, removalOf_snd]
      omega
    · rw [covers_iff, removalOf_snd]
      omega
  · intro h u hu v hv hne ⟨j, hju, hjv⟩ i hui hi
    obtain ⟨a, ha, rfl⟩ := List.mem_map.mp hu
    obtain ⟨b, hb, rfl⟩ := List.mem_map.mp hv
    have hap := mem_places_of_mem_descriptions ha
    have hbp := mem_places_of_mem_descriptions hb
    have haj := covers_iff.mp hju
    have hbj := covers_iff.mp hjv
    rw [removalOf_snd] at hui
    obtain hab | hba := hs.nested_of_shared hap hbp hju hjv
    · by_cases hib : i < b.node.stop
      · -- between the ends of the two, where the outer one is removed
        have hstart := hs.removalOf_le_start hbp
        have hwithin := hs.within hbp hab
        have hforward := (hs a hap).forward
        exact isCovered_iff.mpr ⟨removalOf b, hv, by omega, hib⟩
      · exact h b hb a ha hab hne (by omega) i (by omega) hi
    · exact h a ha b hb hba hne.symm (by omega) i hui hi

theorem nothingLeftBehindNested_of_apart
    (h : ∀ a ∈ s.descriptions o, ∀ b ∈ s.descriptions o, b ∈ a.subtree → b = a) :
    s.NothingLeftBehindNested o :=
  fun a ha b hb hba hne ↦ absurd (congrArg removalOf (h a ha b hb hba)) hne

end Source

namespace Extraction

open Source

variable {s : Source} {o : Options} {x : Extraction}

theorem Reached.mem_removals_iff (h : Reached s o s.places x) (span : Nat × Nat) :
    span ∈ x.removals ↔ span ∈ s.describedSpans o := by
  rw [h.mem_removals, describedSpans, descriptions, List.mem_map]
  simp only [List.mem_filterMap]
  constructor
  · rintro ⟨e, he, a, ha, rfl⟩
    exact ⟨a, ⟨e, he, ha⟩, rfl⟩
  · rintro ⟨a, ⟨e, he, ha⟩, rfl⟩
    exact ⟨e, he, a, ha, rfl⟩

/-- What a traverse leaves of a source is the source without its descriptions iff none of them
stands in another one with something left behind. -/
theorem spliced_eq_undescribed_iff (hs : s.InOrder) (h : (fresh s o).traverse = (x, none)) :
    x.code = Utf8.decodeReplacing x.spliced ∧
      (x.spliced = s.undescribed o ↔ s.NothingLeftBehindNested o) := by
  have hreached : Reached s o s.places x := reached_of_traverse h
  have hmem := hreached.mem_removals_iff
  have hforward : ∀ u ∈ x.removals, u.1 ≤ u.2 := by
    intro u hu
    obtain ⟨a, ha, rfl⟩ := List.mem_map.mp ((hmem u).mp hu)
    exact hs.removalOf_forward (mem_places_of_mem_descriptions ha)
  have hspliced := x.spliced_eq_keptFrom_iff hforward hreached.nodup_removals
  rw [keptFrom_congr fun i _ _ ↦ isCovered_congr hmem i, untangled_congr hmem, hreached.source,
    hs.untangled_iff] at hspliced
  exact ⟨x.code_eq, hspliced⟩

end Extraction

namespace NestedDescription

open Descriptor Extraction

def quoted (quote : String) (start stop : Nat) : Node :=
  ⟨"string", true, start, stop, [],
    [.token quote start (start + 1), .leaf "string_fragment" (start + 1) (stop - 1),
      .token quote (stop - 1) stop]⟩

def property (start stop : Nat) (value : Node) : Node :=
  ⟨"jsx_attribute", true, start, value.stop, [],
    [.leaf "property_identifier" start stop, .token "=" stop (stop + 1), value]⟩

def element (start stop : Nat) (description : Node) : Node :=
  ⟨"jsx_self_closing_element", true, start, stop, [("name", 1)],
    [.token "<" start (start + 1), .leaf "identifier" (start + 1) (start + 2),
      property (start + 3) (start + 5) (quoted "\"" (start + 6) (start + 9)),
      property (start + 10) (start + 24) (quoted "\"" (start + 25) (start + 28)),
      property (start + 29) (start + 40) description, .token "/>" (stop - 2) stop]⟩

def specifier : Node :=
  ⟨"import_specifier", true, 9, 30, [("name", 0), ("alias", 2)],
    [.leaf "identifier" 9 25, .token "as" 26 28, .leaf "identifier" 29 30]⟩

def namedImports : Node :=
  ⟨"named_imports", true, 7, 32, [], [.token "\x7b" 7 8, specifier, .token "\x7d" 31 32]⟩

def importClause : Node := ⟨"import_clause", true, 7, 32, [], [namedImports]⟩

def importStatement : Node :=
  ⟨"import_statement", true, 0, 51, [("source", 3)],
    [.token "import" 0 6, importClause, .token "from" 33 37, quoted "'" 38 50, .token ";" 50 51]⟩

def innerElement : Node := element 107 154 (quoted "\"" 148 151)

def choice : Node :=
  ⟨"ternary_expression", true, 94, 154, [("condition", 0), ("consequence", 2), ("alternative", 4)],
    [.leaf "true" 94 98, .token "?" 99 100, quoted "'" 101 104, .token ":" 105 106, innerElement]⟩

def embeddedChoice : Node :=
  ⟨"jsx_expression", true, 93, 155, [], [.token "\x7b" 93 94, choice, .token "\x7d" 154 155]⟩

def outerElement : Node := element 52 158 embeddedChoice

def statement : Node :=
  ⟨"expression_statement", true, 52, 159, [], [outerElement, .token ";" 158 159]⟩

def program : Node := ⟨"program", true, 0, 159, [], [importStatement, statement]⟩

/-- An import of `F` and an element `F` whose description is a choice between a text and an element
with a description of its own. The name of the latter is a given letter. -/
def source (letter : UInt8) : Source where
  filename := "src/App.jsx"
  path := "src/App.jsx"
  bytes := (Utf8.encode? "import \x7b FormattedMessage as F \x7d from 'react-intl';\n").getD [] ++
    (Utf8.encode? "<F id=\"a\" defaultMessage=\"A\" description=\x7btrue ? 'x' : <").getD [] ++
    letter :: (Utf8.encode? " id=\"b\" defaultMessage=\"B\" description=\"y\" />\x7d />;").getD []
  tree := program
  hasErrors := false

def outer : Place := ⟨outerElement, [(statement, 0), (program, 1)]⟩

def outerAttribute : Place := ⟨property 81 92 embeddedChoice, (outerElement, 4) :: outer.above⟩

def ternary : Place :=
  ⟨choice, (embeddedChoice, 1) :: (outerAttribute.node, 2) :: outerAttribute.above⟩

/-- The text that is chosen. -/
def chosen : Place := ⟨quoted "'" 101 104, (choice, 2) :: ternary.above⟩

/-- The element that is not chosen. -/
def inner : Place := ⟨innerElement, (choice, 4) :: ternary.above⟩

def innerAttribute : Place :=
  ⟨property 136 147 (quoted "\"" 148 151), (innerElement, 4) :: inner.above⟩

set_option maxRecDepth 16000 in
theorem program_scan : (Place.root program).subtree.filter Source.mayDeclare = [outer, inner] ∧
    ((Place.root program).subtree.all fun p ↦ decide p.node.IsOrdered) = true ∧
    ((Place.root program).subtree.all fun p ↦ p.kind != "variable_declaration") = true := by
  cbv

theorem inOrder (letter : UInt8) : (source letter).InOrder :=
  fun p hp ↦ of_decide_eq_true (List.all_eq_true.mp program_scan.2.1 p hp)

def outerTag : Place := ⟨.leaf "identifier" 53 54, (outerElement, 1) :: outer.above⟩

def innerTag : Place := ⟨.leaf "identifier" 108 109, (innerElement, 1) :: inner.above⟩

/-- An attribute as it is written. -/
def written (p : Place) (name value : Node) : Written :=
  ⟨⟨name, (p.node, 0) :: p.above⟩, some ⟨value, (p.node, 2) :: p.above⟩⟩

/-- The id of an element that starts at a byte. -/
def writtenId (e : Place) (start : Nat) : Written :=
  let value := quoted "\"" (start + 6) (start + 9)
  written ⟨property (start + 3) (start + 5) value, (e.node, 2) :: e.above⟩
    (.leaf "property_identifier" (start + 3) (start + 5)) value

/-- The default message of an element that starts at a byte. -/
def writtenMessage (e : Place) (start : Nat) : Written :=
  let value := quoted "\"" (start + 25) (start + 28)
  written ⟨property (start + 10) (start + 24) value, (e.node, 3) :: e.above⟩
    (.leaf "property_identifier" (start + 10) (start + 24)) value

def outerDescription : Written :=
  written outerAttribute (.leaf "property_identifier" 81 92) embeddedChoice

def innerDescription : Written :=
  written innerAttribute (.leaf "property_identifier" 136 147) (quoted "\"" 148 151)

theorem attributes_outer :
    attributes outer = [writtenId outer 52, writtenMessage outer 52, outerDescription] := rfl

theorem attributes_inner :
    attributes inner = [writtenId inner 107, writtenMessage inner 107, innerDescription] := rfl

set_option maxRecDepth 16000 in
theorem texts_outer (letter : UInt8) : (source letter).textOf outerTag = .ok "F" ∧
    (source letter).textOf (writtenId outer 52).name = .ok "id" ∧
    (source letter).textOf (writtenMessage outer 52).name = .ok "defaultMessage" ∧
    (source letter).textOf outerDescription.name = .ok "description" ∧
    (source letter).stringValue (writtenId outer 52).anchor = .ok "a" ∧
    (source letter).stringValue (writtenMessage outer 52).anchor = .ok "A" ∧
    (source letter).stringValue chosen = .ok "x" := by
  cbv

set_option maxRecDepth 16000 in
theorem texts_inner (letter : UInt8) :
    (source letter).textOf (writtenId inner 107).name = .ok "id" ∧
    (source letter).textOf (writtenMessage inner 107).name = .ok "defaultMessage" ∧
    (source letter).textOf innerDescription.name = .ok "description" ∧
    (source letter).stringValue (writtenId inner 107).anchor = .ok "b" ∧
    (source letter).stringValue (writtenMessage inner 107).anchor = .ok "B" ∧
    (source letter).stringValue innerDescription.anchor = .ok "y" := by
  cbv

set_option maxRecDepth 16000 in
theorem textOf_innerTag : (source 0x46).textOf innerTag = .ok "F" ∧
    (source 0x47).textOf innerTag = .ok "G" := by
  cbv

def importedF : Binding :=
  ⟨"F", ⟨.leaf "identifier" 29 30, [(specifier, 2), (namedImports, 1), (importClause, 0),
    (importStatement, 1), (program, 0)]⟩, .imported "react-intl" "FormattedMessage"⟩

set_option maxRecDepth 16000 in
theorem statementBindings_import (letter : UInt8) :
    (source letter).statementBindings ⟨importStatement, [(program, 0)]⟩ = .ok [importedF] := by
  cbv

theorem hoisted_program : (Place.root program).hoisted = [] := by
  apply Place.hoisted_eq_nil
  intro q hq
  exact bne_iff_ne.mp (List.all_eq_true.mp program_scan.2.2 q hq)

theorem declarations_program (letter : UInt8) :
    (source letter).declarations (.root program) = .ok [importedF] := by
  have hparts : (Place.root program).parts.filterMap Source.exported? =
      [⟨importStatement, [(program, 0)]⟩, ⟨statement, [(program, 1)]⟩] := rfl
  have hstatement : (source letter).statementBindings ⟨statement, [(program, 1)]⟩ = .ok [] := rfl
  have hblock : (source letter).blockBindings (.root program) = .ok [importedF] := by
    rw [Source.blockBindings, hparts, Source.gather, List.mapM_cons, statementBindings_import,
      List.mapM_cons, hstatement]
    rfl
  rw [Source.declarations, if_neg (by decide), if_pos (by decide), hblock, Source.hoistedBindings,
    hoisted_program]
  rfl

/-- A name in the source refers to the import if it is `F`, and to nothing otherwise. -/
theorem resolveImport_of_text {letter : UInt8} {p : Place} {t : Text} (hp : Source.isName p = true)
    (hscopes : p.ancestors.filter Place.isScope = [.root program])
    (ht : (source letter).textOf p = .ok t) :
    (source letter).resolveImport p =
      .ok (if t = "F" then some ("react-intl", "FormattedMessage") else none) := by
  have hlookup : (source letter).lookupNode p = .ok (if t = "F" then some importedF else none) := by
    simp only [Source.lookupNode, ht, Source.lookup, hscopes, Source.lookupIn, ok_bind]
    rw [declarations_program, ok_bind, List.find?_singleton]
    by_cases h : t = "F"
    · rw [if_pos h, h]
      rfl
    · have hne : (importedF.name == t) = false := beq_eq_false_iff_ne.mpr fun h' ↦ h h'.symm
      rw [if_neg h, hne]
      rfl
  rw [Source.resolveImport, if_pos hp, hlookup, ok_bind]
  by_cases h : t = "F"
  · rw [if_pos h, if_pos h]
    rfl
  · rw [if_neg h, if_neg h]
    rfl

theorem fold_ternary (letter : UInt8) : (source letter).fold ternary = .ok (.text "x") := by
  obtain ⟨-, -, -, -, -, -, hx⟩ := texts_outer letter
  have htrue : Folding.Judgement.Holds (source letter)
      ((source letter).followPending ((source letter).places.map Place.path))
      (.value ⟨.leaf "true" 94 98, (choice, 0) :: ternary.above⟩ (.bool true)) :=
    Folding.Judgement.holds_literal rfl List.mem_cons_self
  rw [Source.fold, Source.foldWith_eq_foldFrom]
  exact Folding.Judgement.holds_ternary rfl rfl htrue rfl (Folding.Judgement.holds_string rfl hx)

def outerDeclared : Declaration := ⟨⟨.text "a", .text "x", .text "A"⟩, outer, some outerAttribute⟩

def innerDeclared : Declaration := ⟨⟨.text "b", .text "y", .text "B"⟩, inner, some innerAttribute⟩

theorem declared?_outer (letter : UInt8) :
    (source letter).declared? .standard outer = .ok (some outerDeclared) := by
  obtain ⟨htag, hid, hmessage, hdescription, ha, hA, -⟩ := texts_outer letter
  have hparse : Pattern.parse "A" = .ok [.text "A"] := by cbv
  rw [Source.declared?, if_pos (by decide), Source.elementDeclaration_of_component rfl
    (resolveImport_of_text rfl rfl htag) (by decide)]
  exact Source.attributeDeclaration_of_texts attributes_outer (Source.fieldName_of_text rfl hid)
    (Source.fieldName_of_text rfl hmessage) (Source.fieldName_of_text rfl hdescription)
    (Source.fieldValue_of_string rfl rfl ha) (Source.fieldValue_of_string rfl rfl hA) hparse
    (Source.fieldValue_of_text rfl (fold_ternary letter))

theorem declared?_inner : (source 0x46).declared? .standard inner = .ok (some innerDeclared) := by
  obtain ⟨hid, hmessage, hdescription, hb, hB, hy⟩ := texts_inner 0x46
  have hparse : Pattern.parse "B" = .ok [.text "B"] := by cbv
  rw [Source.declared?, if_pos (by decide), Source.elementDeclaration_of_component rfl
    (resolveImport_of_text rfl rfl textOf_innerTag.1) (by decide)]
  exact Source.attributeDeclaration_of_texts attributes_inner (Source.fieldName_of_text rfl hid)
    (Source.fieldName_of_text rfl hmessage) (Source.fieldName_of_text rfl hdescription)
    (Source.fieldValue_of_string rfl rfl hb) (Source.fieldValue_of_string rfl rfl hB) hparse
    (Source.fieldValue_of_string rfl rfl hy)

theorem declared?_inner_of_other : (source 0x47).declared? .standard inner = .ok none := by
  rw [Source.declared?, if_pos (by decide), Source.elementDeclaration_of_unresolved rfl
    (resolveImport_of_text rfl rfl textOf_innerTag.2)]

theorem descriptions_eq (letter : UInt8) : (source letter).descriptions .standard =
    ((source letter).declaredBy .standard [outer, inner]).filterMap (·.description) := by
  have hplaces : (source letter).places = (Place.root program).subtree := rfl
  rw [Source.descriptions, hplaces, ← Source.declaredBy_filter, program_scan.1]

def outerMessage : Message := ⟨.text "a", .text "x", some "A", none, none, none⟩

def outerCatalog (letter : UInt8) : Catalog := ⟨[⟨outerMessage, (source letter).startOf outer⟩]⟩

/-- The state after the visit of the outer element. -/
def afterOuter (letter : UInt8) : Extraction :=
  (fresh (source letter) .standard).begin.settle (outerCatalog letter) outerDeclared

theorem traverse_eq (letter : UInt8) :
    (fresh (source letter) .standard).traverse = (afterOuter letter).visitAll [inner] := by
  have htraverse : (fresh (source letter) .standard).traverse =
      (fresh (source letter) .standard).begin.visitAll (Place.root program).subtree := rfl
  have hput : Catalog.empty.put (source letter) .standard outerDeclared.descriptor outer =
      .ok outerMessage (outerCatalog letter) := rfl
  have hvisit : (fresh (source letter) .standard).begin.visit outer = .ok () (afterOuter letter) :=
    visit_of_put rfl rfl rfl (fun _ _ ↦ rfl) (declared?_outer letter) hput
  rw [htraverse, ← visitAll_filter, program_scan.1, visitAll, hvisit]

theorem unmarked_inner (letter : UInt8) (q : Place) (hq : Source.subject? inner = some q) :
    (afterOuter letter).isMarked q = false := by
  rw [← Option.some.inj hq]
  rfl

/-- With another name the inner element declares nothing, and no more than the description of the
outer one is taken out. -/
theorem undescribed_of_other_name : (source 0x47).InOrder ∧
    ∃ x, (fresh (source 0x47) .standard).traverse = (x, none) ∧
      x.code = Utf8.decodeReplacing ((source 0x47).undescribed .standard) := by
  have htraverse : ∃ x, (fresh (source 0x47) .standard).traverse = (x, none) := by
    have hvisits := visits_declared (unmarked_inner 0x47)
    have hdeclared : (afterOuter 0x47).source.declared? (afterOuter 0x47).options inner =
        .ok none := declared?_inner_of_other
    rw [hdeclared] at hvisits
    rw [traverse_eq, visitAll]
    cases hvisits with
    | passed hv =>
      rw [hv]
      exact ⟨_, rfl⟩
  have hdescriptions : (source 0x47).descriptions .standard = [outerAttribute] := by
    rw [descriptions_eq]
    simp only [Source.declaredBy, List.filterMap_cons, declared?_outer, declared?_inner_of_other]
    rfl
  obtain ⟨x, hx⟩ := htraverse
  obtain ⟨hcode, hspliced⟩ := spliced_eq_undescribed_iff (inOrder 0x47) hx
  refine ⟨inOrder 0x47, x, hx, ?_⟩
  rw [hcode, hspliced.mpr]
  apply Source.nothingLeftBehindNested_of_apart
  intro a ha b hb _
  rw [hdescriptions, List.mem_singleton] at ha hb
  rw [ha, hb]

/-- What is left of the source where the inner element declares a message. -/
def leftOver : Text :=
  "import \x7b FormattedMessage as F \x7d from 'react-intl';\n<F id=\"a\" defaultMessage=\"A\""

theorem traverse_nested : ∃ x, (fresh (source 0x46) .standard).traverse = (x, none) ∧
    x.source = source 0x46 ∧ x.removals = [(80, 155), (135, 151)] := by
  obtain ⟨m, c, hput⟩ : ∃ m c, (outerCatalog 0x46).put (source 0x46) .standard
      innerDeclared.descriptor inner = .ok m c := ⟨_, _, rfl⟩
  have hvisit : (afterOuter 0x46).visit inner = .ok () ((afterOuter 0x46).settle c innerDeclared) :=
    visit_of_put rfl rfl rfl (unmarked_inner 0x46) declared?_inner hput
  refine ⟨(afterOuter 0x46).settle c innerDeclared, ?_, rfl, rfl⟩
  rw [traverse_eq, visitAll, hvisit]
  rfl

set_option maxRecDepth 16000 in
theorem code_nested {x : Extraction} (hs : x.source = source 0x46)
    (hx : x.removals = [(80, 155), (135, 151)]) : x.code = leftOver := by
  have hsorted : [(80, 155), (135, 151)].mergeSort laterSpan = [(135, 151), (80, 155)] := by cbv
  rw [code, hs, hx, hsorted]
  cbv

set_option maxRecDepth 16000 in
theorem decode_kept :
    Utf8.decodeReplacing (keptFrom [(80, 155), (135, 151)] 0 (source 0x46).bytes) =
      leftOver ++ (" />;" : Text) := by
  cbv

/-- The description of the inner element is cut out first, and the cut of the outer one, as long as
it was, then takes what stands behind it too. -/
theorem cut_short_of_nested : (source 0x46).InOrder ∧
    ∃ x, (fresh (source 0x46) .standard).traverse = (x, none) ∧ x.code = leftOver ∧
      Utf8.decodeReplacing ((source 0x46).undescribed .standard) = leftOver ++ (" />;" : Text) ∧
      x.code ≠ Utf8.decodeReplacing ((source 0x46).undescribed .standard) := by
  obtain ⟨x, hx, hsource, hremovals⟩ := traverse_nested
  have hcode := code_nested hsource hremovals
  have hspans : (source 0x46).describedSpans .standard = [(80, 155), (135, 151)] := by
    rw [Source.describedSpans, descriptions_eq]
    simp only [Source.declaredBy, List.filterMap_cons, declared?_outer, declared?_inner]
    rfl
  have hkept : Utf8.decodeReplacing ((source 0x46).undescribed .standard) =
      leftOver ++ (" />;" : Text) := by
    rw [Source.undescribed, hspans, decode_kept]
  refine ⟨inOrder 0x46, x, hx, hcode, hkept, ?_⟩
  rw [hcode, hkept]
  intro h
  cases List.self_eq_append_right.mp h

end NestedDescription

end MessageExtraction
