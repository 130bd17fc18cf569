import MessageExtraction.Tree.Basic
import MessageExtraction.Text.Basic

namespace MessageExtraction

/-- How a name comes to be declared. -/
inductive BindingKind where
  /-- Imported from a module under a name of its own. -/
  | imported (module name : Text)
  /-- Stands for a whole module. -/
  | wholeModule (module : Text)
  /-- Declared with a keyword, and with the initial value if the name stands alone before one. -/
  | declared (keyword : String) (value : Option Place)
  | parameter
  | functionName
  | className
  | caught

/-- A declared name and the node that declares it. -/
structure Binding where
  name : Text
  place : Place
  kind : BindingKind

/-- The initial value of a variable. -/
def Binding.value? (b : Binding) : Option Place :=
  match b.kind with
  | .declared _ value => value
  | _ => none

namespace Place

/-- The field of a pattern that holds what it binds, for patterns with one such field. -/
def boundField? : String → Option String
  | "assignment_pattern" | "object_assignment_pattern" => some "left"
  | "pair_pattern" => some "value"
  | "required_parameter" | "optional_parameter" => some "pattern"
  | _ => none

/-- The kinds of patterns that bind what their parts bind. -/
def compoundPatterns : List String :=
  ["object_pattern", "array_pattern", "rest_pattern", "formal_parameters"]

/-- The names that a declaration or a parameter binds, in order. -/
def boundNames (p : Place) : List Place :=
  if p.kind = "identifier" ∨ p.kind = "shorthand_property_identifier_pattern" then [p]
  else match boundField? p.kind with
    | some name =>
      match _h : p.field? name with
      | some q => q.boundNames
      | none => []
    | none =>
      if compoundPatterns.contains p.kind then
        p.parts.attach.flatMap fun ⟨c, _⟩ ↦ c.boundNames
      else []
termination_by sizeOf p.node
decreasing_by
  · exact sizeOf_node_lt (mem_children_of_field? _h)
  · exact sizeOf_node_lt (mem_children_of_mem_parts (by assumption))

end Place

end MessageExtraction
