import Mathlib.Data.List.Flatten
import MessageExtraction.Proofs.Scope.Ways

/-!
The names that a pattern binds. In a pattern as the grammar forms it they are the identifiers that stand
in no key, no default and no type, each once and in the order in which they are written.
-/

namespace MessageExtraction

namespace Place

variable {p q c x : Place}

theorem subtree_sublist_of_mem_children (h : c ∈ p.children) : c.subtree.Sublist p.subtree := by
  rw [subtree_eq p, List.flatMap_def]
  exact (List.sublist_flatten_of_mem (List.mem_map_of_mem h)).cons p

/-- The names that a pattern binds stand in the order of the tree. -/
theorem boundNames_sublist_subtree (p : Place) : p.boundNames.Sublist p.subtree := by
  rw [boundNames]
  split
  · rw [subtree_eq]
    exact (List.nil_sublist _).cons_cons p
  split
  · split
    · rename_i q hq
      have hchild := mem_children_of_field? hq
      have hlt := sizeOf_node_lt hchild
      exact (boundNames_sublist_subtree q).trans (subtree_sublist_of_mem_children hchild)
    · exact List.nil_sublist _
  · split
    · rw [List.flatMap_subtype (g := boundNames) fun _ _ ↦ rfl, List.unattach_attach, subtree_eq]
      have hparts : (p.parts.flatMap boundNames).Sublist (p.parts.flatMap subtree) := by
        apply List.Sublist.flatMap_right
        intro c hc
        have hlt := sizeOf_node_lt (mem_children_of_mem_parts hc)
        exact boundNames_sublist_subtree c
      exact (hparts.trans (List.filter_sublist.flatMap subtree)).cons p
    · exact List.nil_sublist _
termination_by sizeOf p.node

theorem nodup_boundNames (p : Place) : p.boundNames.Nodup :=
  (boundNames_sublist_subtree p).nodup (nodup_subtree p)

/-- A node that can stand for a variable in a pattern. -/
def NamesVariable (p : Place) : Prop :=
  p.kind = "identifier" ∨ p.kind = "shorthand_property_identifier_pattern"

instance (p : Place) : Decidable p.NamesVariable := inferInstanceAs (Decidable (_ ∨ _))

/-- A node encloses one pattern: a pair of a key and a value, a pattern with a default, or a parameter with a
type. -/
inductive Encloses : Place → Place → Prop
  | pair {p q : Place} : p.kind = "pair_pattern" → p.field? "value" = some q → Encloses p q
  | default {p q : Place} : p.kind = "assignment_pattern" ∨ p.kind = "object_assignment_pattern" →
      p.field? "left" = some q → Encloses p q
  | parameter {p q : Place} : p.kind = "required_parameter" ∨ p.kind = "optional_parameter" →
      p.field? "pattern" = some q → Encloses p q

theorem encloses_iff : p.Encloses q ↔ ∃ name, boundField? p.kind = some name ∧ p.field? name = some q := by
  constructor
  · intro h
    cases h with
    | pair hk hq => exact ⟨_, by rw [hk, boundField?], hq⟩
    | default hk hq => exact ⟨_, by obtain hk | hk := hk <;> rw [hk, boundField?], hq⟩
    | parameter hk hq => exact ⟨_, by obtain hk | hk := hk <;> rw [hk, boundField?], hq⟩
  · rintro ⟨name, hname, hq⟩
    unfold boundField? at hname
    split at hname <;> cases hname
    · exact .default (.inl ‹_›) hq
    · exact .default (.inr ‹_›) hq
    · exact .pair ‹_› hq
    · exact .parameter (.inl ‹_›) hq
    · exact .parameter (.inr ‹_›) hq

theorem Encloses.mem_children (h : p.Encloses q) : q ∈ p.children := by
  obtain ⟨_, -, hq⟩ := encloses_iff.mp h
  exact mem_children_of_field? hq

theorem Encloses.unique (hq : p.Encloses q) (hc : p.Encloses c) : c = q := by
  obtain ⟨name, hname, hq⟩ := encloses_iff.mp hq
  obtain ⟨name', hname', hc⟩ := encloses_iff.mp hc
  obtain rfl := Option.some.inj (hname.symm.trans hname')
  exact Option.some.inj (hc.symm.trans hq)

theorem Encloses.boundNames_eq (h : p.Encloses q) : p.boundNames = q.boundNames := by
  obtain ⟨_, hf, hq⟩ := encloses_iff.mp h
  exact boundNames_of_field hf hq

theorem Encloses.not_namesVariable (h : p.Encloses q) : ¬p.NamesVariable := by
  obtain ⟨_, hname, -⟩ := encloses_iff.mp h
  rintro (hk | hk) <;> simp [hk, boundField?] at hname

/-- A child of a node that encloses a pattern, other than the pattern: the key of a pair, a default, the type
or a decorator of a parameter. -/
def IsBeside (c p : Place) : Prop := c ∈ p.children ∧ (∃ q, p.Encloses q) ∧ ¬p.Encloses c

/-- A place lies in something that stands beside a pattern in a larger one. -/
def LiesBeside (x p : Place) : Prop := ∃ r ∈ p.subtree, ∃ c : Place, c.IsBeside r ∧ x ∈ c.subtree

theorem LiesBeside.of_mem_children (h : x.LiesBeside c) (hc : c ∈ p.children) : x.LiesBeside p := by
  obtain ⟨r, hr, hx⟩ := h
  exact ⟨r, mem_subtree_trans (mem_subtree_of_mem_children hc) hr, hx⟩

/-- A place with nothing in it that could stand for a variable, such as a comment, a piece of punctuation
or the receiver among the parameters of a function. -/
def IsPlain (p : Place) : Prop := ∀ x ∈ p.subtree, ¬x.NamesVariable

/-- A pattern as the grammar forms it: a name; something plain; a list of parameters, a pattern of an
object or of an array, or a rest, of which the parts are patterns and the remaining words are plain; a
pattern with a key, a default or a type. -/
inductive IsPattern : Place → Prop
  | name {p : Place} : p.NamesVariable → p.node.children = [] → IsPattern p
  | plain {p : Place} : p.IsPlain → IsPattern p
  | compound {p : Place} :
      p.kind ∈ ["object_pattern", "array_pattern", "rest_pattern", "formal_parameters"] →
      (∀ c ∈ p.parts, IsPattern c) → (∀ c ∈ p.children, c ∉ p.parts → c.IsPlain) → IsPattern p
  | around {p q : Place} : p.Encloses q → IsPattern q → IsPattern p

theorem eq_of_mem_subtree_of_leaf (hp : p.node.children = []) (h : x ∈ p.subtree) : x = p := by
  obtain rfl | ⟨c, hc, -⟩ := mem_subtree_iff.mp h
  · rfl
  · have hmem := node_mem_of_mem_children hc
    rw [hp] at hmem
    cases hmem

theorem Binds.namesVariable (h : p.Binds x) : x.NamesVariable := by
  induction h with
  | name hk => exact hk
  | field _ _ _ ih => exact ih
  | part _ _ _ ih => exact ih

/-- What a pattern binds stands beside no pattern in it: all that is around it down from the pattern
binds it, too. -/
theorem Binds.not_liesBeside (h : p.Binds x) : ¬x.LiesBeside p := by
  rintro ⟨r, hr, c, ⟨hc, ⟨q, hq⟩, hnot⟩, hx⟩
  -- `r` is around `x` and binds it, so the child with `x` is the one that `r` encloses
  have hbelow : x ∈ r.subtree := mem_subtree_trans (mem_subtree_of_mem_children hc) hx
  cases h.of_mem_subtree hr hbelow with
  | name hk => exact hq.not_namesVariable hk
  | @field _ q' _ _ hf hq' hbinds =>
    obtain rfl := eq_of_mem_subtree_of_siblings hc (mem_children_of_field? hq') hx
      hbinds.opens.mem_subtree
    exact hnot (encloses_iff.mpr ⟨_, hf, hq'⟩)
  | part hk _ _ =>
    obtain ⟨_, hname, -⟩ := encloses_iff.mp hq
    simp only [compoundPatterns, List.mem_cons, List.not_mem_nil, or_false] at hk
    obtain hk | hk | hk | hk := hk <;> simp [hk, boundField?] at hname

/-- A variable that is named in a node that encloses a pattern, and beside nothing, is named in the pattern. -/
theorem Encloses.mem_subtree_of_namesVariable (hq : p.Encloses q) (hx : x ∈ p.subtree) (hname : x.NamesVariable)
    (hbeside : ¬x.LiesBeside p) : x ∈ q.subtree := by
  obtain rfl | ⟨c, hc, hxc⟩ := mem_subtree_iff.mp hx
  · exact absurd hname hq.not_namesVariable
  · by_cases hheld : p.Encloses c
    · rwa [hq.unique hheld] at hxc
    · exact absurd ⟨p, self_mem_subtree p, c, ⟨hc, ⟨q, hq⟩, hheld⟩, hxc⟩ hbeside

/-- A variable that is named in a pattern is bound, or stands beside a pattern in it. -/
theorem IsPattern.binds (h : p.IsPattern) (hx : x ∈ p.subtree) (hname : x.NamesVariable)
    (hbeside : ¬x.LiesBeside p) : p.Binds x := by
  induction h with
  | @name p hk hleaf =>
    obtain rfl := eq_of_mem_subtree_of_leaf hleaf hx
    exact .name hk
  | plain hplain => exact absurd hname (hplain x hx)
  | @compound p hk _ hwords ih =>
    obtain rfl | ⟨c, hc, hxc⟩ := mem_subtree_iff.mp hx
    · obtain hname | hname := hname <;> simp [hname] at hk
    · by_cases hpart : c ∈ p.parts
      · exact .part hk hpart (ih c hpart hxc fun h ↦ hbeside (h.of_mem_children hc))
      · exact absurd hname (hwords c hc hpart x hxc)
  | @around p q hq _ ih =>
    obtain ⟨_, hf, hq'⟩ := encloses_iff.mp hq
    have hbelow := hq.mem_subtree_of_namesVariable hx hname hbeside
    exact .field hf hq' (ih hbelow fun h ↦ hbeside (h.of_mem_children hq.mem_children))

/-- A pattern binds the variables that are named in it and not in a key, a default or a type, or
whatever else stands beside a pattern. They are listed in the order of the tree and each once. -/
theorem boundNames_exact (h : p.IsPattern) :
    p.boundNames.Sublist p.subtree ∧ p.boundNames.Nodup ∧
      ∀ x, x ∈ p.boundNames ↔ x ∈ p.subtree ∧ x.NamesVariable ∧ ¬x.LiesBeside p := by
  refine ⟨boundNames_sublist_subtree p, nodup_boundNames p, fun x ↦ ?_⟩
  rw [mem_boundNames_iff]
  constructor
  · intro hx
    exact ⟨hx.opens.mem_subtree, hx.namesVariable, hx.not_liesBeside⟩
  · rintro ⟨hx, hname, hbeside⟩
    exact h.binds hx hname hbeside

theorem IsPlain.of_leaf (hp : p.node.children = []) (hk : ¬p.NamesVariable) : p.IsPlain := by
  intro x hx
  rwa [eq_of_mem_subtree_of_leaf hp hx]

/-- A compound pattern with all words in it leaves that are no names. -/
theorem IsPattern.of_parts
    (hk : p.kind ∈ ["object_pattern", "array_pattern", "rest_pattern", "formal_parameters"])
    (hparts : ∀ c ∈ p.parts, c.IsPattern)
    (hwords : ∀ c ∈ p.children, (c.node.isNamed && c.kind != "comment") = false →
      c.node.children.isEmpty ∧ ¬c.NamesVariable) : p.IsPattern := by
  refine .compound hk hparts fun c hc hnot ↦ ?_
  have hword : (c.node.isNamed && c.kind != "comment") = false := by
    rw [parts, List.mem_filter] at hnot
    exact Bool.eq_false_iff.mpr fun h ↦ hnot ⟨hc, h⟩
  obtain ⟨hleaf, hname⟩ := hwords c hc hword
  exact .of_leaf (List.isEmpty_iff.mp hleaf) hname

end Place

namespace DestructuredParameter

open Place

def letter (start : Nat) : Node := .leaf "identifier" start (start + 1)

def computedKey : Node :=
  ⟨"computed_property_name", true, 3, 6, [], [.token "[" 3 4, letter 4, .token "]" 5 6]⟩

def optionalName : Node :=
  ⟨"assignment_pattern", true, 8, 13, [("left", 0), ("right", 2)], [letter 8, .token "=" 10 11, letter 12]⟩

def pair : Node :=
  ⟨"pair_pattern", true, 3, 13, [("key", 0), ("value", 2)], [computedKey, .token ":" 6 7, optionalName]⟩

def rest : Node := ⟨"rest_pattern", true, 15, 19, [], [.token "..." 15 18, letter 18]⟩

def object : Node :=
  ⟨"object_pattern", true, 1, 21, [],
    [.token "\x7b" 1 2, pair, .token "," 13 14, rest, .token "\x7d" 20 21]⟩

def annotation : Node :=
  ⟨"type_annotation", true, 21, 24, [], [.token ":" 21 22, .leaf "type_identifier" 23 24]⟩

def parameter : Node :=
  ⟨"required_parameter", true, 1, 28, [("pattern", 0), ("value", 3)],
    [object, annotation, .token "=" 25 26, letter 27]⟩

/-- The parameters `({ [k]: a = b, ...c }: T = d)`. -/
def parameters : Place :=
  .root ⟨"formal_parameters", true, 0, 29, [], [.token "(" 0 1, parameter, .token ")" 28 29]⟩

def parameterPlace : Place := ⟨parameter, [(parameters.node, 1)]⟩

def objectPlace : Place := ⟨object, (parameter, 0) :: parameterPlace.above⟩

def pairPlace : Place := ⟨pair, (object, 1) :: objectPlace.above⟩

def optionalPlace : Place := ⟨optionalName, (pair, 2) :: pairPlace.above⟩

def restPlace : Place := ⟨rest, (object, 3) :: objectPlace.above⟩

def first : Place := ⟨letter 8, (optionalName, 0) :: optionalPlace.above⟩

def second : Place := ⟨letter 18, (rest, 1) :: restPlace.above⟩

def keyPlace : Place := ⟨computedKey, (pair, 0) :: pairPlace.above⟩

/-- The variable in the key. -/
def keyName : Place := ⟨letter 4, (computedKey, 1) :: keyPlace.above⟩

theorem encloses_parameter : parameterPlace.Encloses objectPlace := .parameter (.inl rfl) rfl

theorem encloses_pair : pairPlace.Encloses optionalPlace := .pair rfl rfl

theorem encloses_optional : optionalPlace.Encloses first := .default (.inl rfl) rfl

theorem isPattern_parameters : parameters.IsPattern := by
  have hfirst : first.IsPattern := .name (.inl rfl) rfl
  have hsecond : second.IsPattern := .name (.inl rfl) rfl
  have hpair : pairPlace.IsPattern := .around encloses_pair (.around encloses_optional hfirst)
  have hrest : restPlace.IsPattern := by
    apply IsPattern.of_parts (by decide) _ (by decide)
    exact List.forall_mem_singleton.mpr hsecond
  have hobject : objectPlace.IsPattern := by
    apply IsPattern.of_parts (by decide) _ (by decide)
    exact List.forall_mem_cons.mpr ⟨hpair, List.forall_mem_singleton.mpr hrest⟩
  apply IsPattern.of_parts (by decide) _ (by decide)
  exact List.forall_mem_singleton.mpr (.around encloses_parameter hobject)

theorem boundNames_parameters : parameters.boundNames = [first, second] := by
  have hpair : pairPlace.boundNames = [first] := by
    rw [encloses_pair.boundNames_eq, encloses_optional.boundNames_eq, boundNames_of_name (.inl rfl)]
  have hrest : restPlace.boundNames = [second] := by
    have hparts : restPlace.parts = [second] := rfl
    rw [boundNames_of_compound (by decide), hparts, List.flatMap_singleton, boundNames_of_name (.inl rfl)]
  have hobject : objectPlace.boundNames = [first, second] := by
    have hparts : objectPlace.parts = [pairPlace, restPlace] := rfl
    rw [boundNames_of_compound (by decide), hparts, List.flatMap_cons, List.flatMap_singleton, hpair, hrest]
    rfl
  have hparts : parameters.parts = [parameterPlace] := rfl
  rw [boundNames_of_compound (by decide), hparts, List.flatMap_singleton, encloses_parameter.boundNames_eq,
    hobject]

theorem keyName_liesBeside : keyName.LiesBeside parameters := by
  have hchild {p c : Place} {i : Nat} (h : c.IsChildAt p i) : c ∈ p.subtree :=
    mem_subtree_of_mem_children h.mem_children
  have hparameter : parameterPlace ∈ parameters.subtree := hchild (i := 1) ⟨rfl, rfl⟩
  have hobject : objectPlace ∈ parameterPlace.subtree := hchild (i := 0) ⟨rfl, rfl⟩
  have hpair : pairPlace ∈ objectPlace.subtree := hchild (i := 1) ⟨rfl, rfl⟩
  have hkey : keyPlace.IsChildAt pairPlace 0 := ⟨rfl, rfl⟩
  have hname : keyName ∈ keyPlace.subtree := hchild (i := 1) ⟨rfl, rfl⟩
  refine ⟨pairPlace, mem_subtree_trans hparameter (mem_subtree_trans hobject hpair), keyPlace,
    ⟨hkey.mem_children, ⟨optionalPlace, encloses_pair⟩, fun h ↦ ?_⟩, hname⟩
  have hkind := congrArg Place.kind (encloses_pair.unique h)
  exact absurd hkind (by decide)

/-- The parameters bind `a` and `c`, in this order, and not `k`, which is in a key. -/
theorem names_of_parameters : parameters.IsPattern ∧ parameters.boundNames = [first, second] ∧
    [first, second].Sublist parameters.subtree ∧ keyName.NamesVariable ∧ keyName ∉ parameters.boundNames := by
  obtain ⟨hsublist, -, hmem⟩ := boundNames_exact isPattern_parameters
  rw [boundNames_parameters] at hsublist
  refine ⟨isPattern_parameters, boundNames_parameters, hsublist, .inl rfl, fun h ↦ ?_⟩
  exact ((hmem keyName).mp h).2.2 keyName_liesBeside

end DestructuredParameter

end MessageExtraction
