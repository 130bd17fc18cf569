namespace MessageExtraction

/-- A node of a syntax tree: the grammar's word for it, whether the grammar names it, the bytes it
spans, its children, and which child each of its fields is. -/
structure Node where
  kind : String
  isNamed : Bool
  start : Nat
  stop : Nat
  fields : List (String × Nat)
  children : List Node

namespace Node

instance : Inhabited Node := ⟨⟨"", false, 0, 0, [], []⟩⟩

theorem sizeOf_lt_of_mem {n c : Node} (h : c ∈ n.children) : sizeOf c < sizeOf n := by
  have := List.sizeOf_lt_of_mem h
  cases n
  simp only [mk.sizeOf_spec]
  simp only at this
  omega

/-- A node as it stands in a listing of a tree, a node before its children. -/
structure Entry where
  kind : String
  isNamed : Bool
  start : Nat
  stop : Nat
  childCount : Nat
  fields : List (String × Nat)

/-- Gives an entry the trees that its children have become. -/
def Entry.adopt (e : Entry) (trees : List Node) : List Node :=
  ⟨e.kind, e.isNamed, e.start, e.stop, e.fields, trees.take e.childCount⟩
    :: trees.drop e.childCount

/-- The tree that a listing describes. -/
def ofEntries? (entries : List Entry) : Option Node := (entries.foldr Entry.adopt []).head?

end Node

/-- A node where it stands: the nodes around it, nearest first, each with the position of the child
that is taken. Two places of one tree are the same iff their paths are. -/
structure Place where
  node : Node
  above : List (Node × Nat)

namespace Place

instance : Inhabited Place := ⟨⟨default, []⟩⟩

def root (n : Node) : Place := ⟨n, []⟩

def kind (p : Place) : String := p.node.kind

/-- The positions of the children taken, from the place up to the root. -/
def path (p : Place) : List Nat := p.above.map (·.2)

def parent? (p : Place) : Option Place :=
  match p.above with
  | [] => none
  | (n, _) :: rest => some ⟨n, rest⟩

/-- The places around, nearest first. -/
def ancestorsOf : List (Node × Nat) → List Place
  | [] => []
  | (n, _) :: rest => ⟨n, rest⟩ :: ancestorsOf rest

def ancestors (p : Place) : List Place := ancestorsOf p.above

def children (p : Place) : List Place :=
  p.node.children.mapIdx fun i c ↦ ⟨c, (p.node, i) :: p.above⟩

theorem node_mem_of_mem_children {p c : Place} (h : c ∈ p.children) : c.node ∈ p.node.children := by
  rw [children, List.mem_mapIdx] at h
  obtain ⟨i, hi, rfl⟩ := h
  exact List.getElem_mem hi

theorem sizeOf_node_lt {p c : Place} (h : c ∈ p.children) : sizeOf c.node < sizeOf p.node :=
  Node.sizeOf_lt_of_mem (node_mem_of_mem_children h)

/-- The children that the grammar names, comments left out. -/
def parts (p : Place) : List Place :=
  p.children.filter fun c ↦ c.node.isNamed && c.kind != "comment"

theorem mem_children_of_mem_parts {p c : Place} (h : c ∈ p.parts) : c ∈ p.children :=
  (List.mem_filter.mp h).1

/-- The child that a field is. -/
def field? (p : Place) (name : String) : Option Place :=
  (p.node.fields.lookup name).bind (p.children[·]?)

theorem mem_children_of_field? {p c : Place} {name : String} (h : p.field? name = some c) :
    c ∈ p.children := by
  simp only [field?, Option.bind_eq_some_iff] at h
  obtain ⟨i, _, hi⟩ := h
  exact List.mem_of_getElem? hi

/-- The first child of a kind. -/
def childOfKind? (p : Place) (kind : String) : Option Place := p.children.find? (·.kind == kind)

/-- The child before this one of the same parent. -/
def previous? (p : Place) : Option Place :=
  match p.above with
  | (n, i + 1) :: rest => (Place.mk n rest).children[i]?
  | _ => none

/-- The place and all below it, each before its children. -/
def subtree (p : Place) : List Place :=
  p :: p.children.attach.flatMap fun ⟨c, _⟩ ↦ c.subtree
termination_by sizeOf p.node
decreasing_by exact sizeOf_node_lt (by assumption)

/-- The kinds of nodes that do not change the value of what they stand around. -/
def wrapperKinds : List String :=
  ["parenthesized_expression", "as_expression", "satisfies_expression", "non_null_expression",
    "type_assertion"]

def isWrapper (p : Place) : Bool := wrapperKinds.contains p.kind

theorem mem_children_of_head?_parts {p c : Place} (h : p.parts.head? = some c) : c ∈ p.children :=
  mem_children_of_mem_parts (List.mem_of_head? h)

/-- The first part of a wrapper, of that its first part if it is a wrapper, and so on. -/
def unwrapped (p : Place) : Place :=
  if p.isWrapper then
    match _h : p.parts.head? with
    | some inner => inner.unwrapped
    | none => p
  else p
termination_by sizeOf p.node
decreasing_by exact sizeOf_node_lt (mem_children_of_head?_parts _h)

end Place

end MessageExtraction
