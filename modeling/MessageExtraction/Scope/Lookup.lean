import MessageExtraction.Scope.Declarations

namespace MessageExtraction.Source

/-- The binding of a name in the nearest of some scopes that declares it. -/
def lookupIn (s : Source) (name : Text) : List Place → Except Fault (Option Binding)
  | [] => .ok none
  | scope :: outer => do
    match (← s.declarations scope).find? (·.name == name) with
    | some b => return some b
    | none => s.lookupIn name outer

/-- The binding that a name refers to at a place; none for a global name. -/
def lookup (s : Source) (p : Place) (name : Text) : Except Fault (Option Binding) :=
  s.lookupIn name (p.ancestors.filter Place.isScope)

/-- The binding that a node refers to by the text it spans. -/
def lookupNode (s : Source) (p : Place) : Except Fault (Option Binding) := do
  s.lookup p (← s.textOf p)

/-- What a node assigns to, if it is an assignment. -/
def assigned? (p : Place) : Option Place :=
  match p.kind with
  | "assignment_expression" | "augmented_assignment_expression" => p.field? "left"
  | "update_expression" => p.field? "argument"
  | _ => none

/-- The names that are assigned to somewhere in the source. -/
def reassigned (s : Source) : Except Fault (List Text) :=
  ((s.places.filterMap assigned?).filter (·.kind == "identifier")).mapM s.textOf

/-- Whether a binding is of a variable that is never given another value. -/
def isConstant (s : Source) (b : Binding) : Except Fault Bool :=
  match b.kind with
  | .declared "const" _ => .ok true
  | .declared "let" _ | .declared "var" _ => do return !(← s.reassigned).contains b.name
  | _ => .ok false

/-- The object and the property of a member access. -/
def memberParts? (p : Place) : Option (Place × Place) :=
  match p.field? "object", p.field? "property", p.parts with
  | some object, some property, _ => some (object, property)
  | _, _, [object, property] => some (object, property)
  | _, _, _ => none

def isName (p : Place) : Bool := p.kind == "identifier" || p.kind == "jsx_identifier"

def isMember (p : Place) : Bool := p.kind == "member_expression" || p.kind == "nested_identifier"

/-- The module and the name in it that a node refers to: an imported name, or a member of what stands
for a module or for its default. -/
def resolveImport (s : Source) (p : Place) : Except Fault (Option (Text × Text)) :=
  if isName p then do
    match (← s.lookupNode p).map Binding.kind with
    | some (.imported module name) => return some (module, name)
    | _ => return none
  else if isMember p then
    match memberParts? p with
    | none => .ok none
    | some (object, property) =>
      if isName object then do
        match (← s.lookupNode object).map Binding.kind with
        | some (.wholeModule module) => return some (module, ← s.textOf property)
        | some (.imported module name) =>
          if name = "default" then return some (module, ← s.textOf property) else return none
        | _ => return none
      else .ok none
  else .ok none

/-- Whether a node refers to a name of a module. -/
def referencesImport (s : Source) (p : Place) (module name : Text) : Except Fault Bool := do
  return (← s.resolveImport p) == some (module, name)

end MessageExtraction.Source
