import MessageExtraction.Scope.Binding
import MessageExtraction.Tree.Literal

namespace MessageExtraction

namespace Place

def functionKinds : List String :=
  ["function_declaration", "function_expression", "function", "generator_function_declaration",
    "generator_function", "arrow_function", "method_definition"]

def blockKinds : List String := ["statement_block", "switch_body", "class_static_block"]

/-- The kinds of nodes that have names of their own. -/
def scopeKinds : List String :=
  functionKinds ++ blockKinds ++ ["program", "for_statement", "for_in_statement", "catch_clause"]

/-- The function expressions whose name is known inside them alone. -/
def selfNamedKinds : List String := ["function_expression", "function", "generator_function"]

def isFunction (p : Place) : Bool := functionKinds.contains p.kind

def isScope (p : Place) : Bool := scopeKinds.contains p.kind

/-- The declarations with `var` below a place that belong to its function, those inside of other
functions left out. What comes later in the source comes first. -/
def hoisted (p : Place) : List Place :=
  p.children.attach.reverse.flatMap fun ⟨c, _⟩ ↦
    if c.isFunction then []
    else if c.kind = "variable_declaration" then c :: c.hoisted
    else c.hoisted
termination_by sizeOf p.node
decreasing_by all_goals exact sizeOf_node_lt (by assumption)

end Place

namespace Source

/-- The binding of the name that a node spells. -/
def bind (s : Source) (kind : BindingKind) (p : Place) : Except Fault Binding := do
  return ⟨← s.textOf p, p, kind⟩

def bindEach (s : Source) (kind : BindingKind) (ps : List Place) : Except Fault (List Binding) :=
  ps.mapM (s.bind kind)

/-- Runs over a list and puts what each item gives one after the other. -/
def gather (f : Place → Except Fault (List Binding)) (ps : List Place) :
    Except Fault (List Binding) := do
  return (← ps.mapM f).flatten

def bindOptional (s : Source) (kind : BindingKind) : Option Place → Except Fault (List Binding)
  | some p => do return [← s.bind kind p]
  | none => .ok []

/-- The keyword of a declaration. -/
def keywordOf (declaration : Place) : String :=
  if declaration.kind = "variable_declaration" then "var"
  else match declaration.children.head? with
    | some c => c.kind
    | none => "var"

/-- What one declarator binds; only a name that stands alone keeps its initial value. -/
def declaratorBindings (s : Source) (keyword : String) (declarator : Place) :
    Except Fault (List Binding) :=
  if declarator.kind ≠ "variable_declarator" then .ok []
  else match declarator.field? "name" with
    | none => .ok []
    | some name =>
      if name.kind = "identifier" then do
        return [← s.bind (.declared keyword (declarator.field? "value")) name]
      else s.bindEach (.declared keyword none) name.boundNames

def declarationBindings (s : Source) (declaration : Place) : Except Fault (List Binding) :=
  gather (s.declaratorBindings (keywordOf declaration)) declaration.parts

/-- What one specifier of an import binds. -/
def specifierBindings (s : Source) (module : Text) (specifier : Place) :
    Except Fault (List Binding) :=
  if specifier.kind ≠ "import_specifier" then .ok []
  else match specifier.field? "name" with
    | none => .ok []
    | some name => do
      let exported ← if name.kind = "string" then s.stringValue name else s.textOf name
      return [← s.bind (.imported module exported) ((specifier.field? "alias").getD name)]

/-- What one part of an import's clause binds. -/
def clauseBindings (s : Source) (module : Text) (part : Place) : Except Fault (List Binding) :=
  match part.kind with
  | "identifier" => do return [← s.bind (.imported module "default") part]
  | "namespace_import" => s.bindOptional (.wholeModule module) (part.childOfKind? "identifier")
  | "named_imports" => gather (s.specifierBindings module) part.parts
  | _ => .ok []

def importBindings (s : Source) (statement : Place) : Except Fault (List Binding) :=
  match statement.field? "source", statement.childOfKind? "import_clause" with
  | some source, some clause => do
    let module ← s.stringValue source
    gather (s.clauseBindings module) clause.parts
  | _, _ => .ok []

/-- What a statement binds in the block that it stands in. -/
def statementBindings (s : Source) (statement : Place) : Except Fault (List Binding) :=
  match statement.kind with
  | "import_statement" => s.importBindings statement
  | "lexical_declaration" => s.declarationBindings statement
  | "function_declaration" | "generator_function_declaration" =>
    s.bindOptional .functionName (statement.field? "name")
  | "class_declaration" | "abstract_class_declaration" =>
    s.bindOptional .className (statement.field? "name")
  | _ => .ok []

/-- The declaration that an export statement holds; any other statement is its own. -/
def exported? (statement : Place) : Option Place :=
  if statement.kind = "export_statement" then statement.field? "declaration" else some statement

def blockBindings (s : Source) (block : Place) : Except Fault (List Binding) :=
  gather s.statementBindings (block.parts.filterMap exported?)

def hoistedBindings (s : Source) (body : Place) : Except Fault (List Binding) :=
  gather s.declarationBindings body.hoisted

def functionBindings (s : Source) (function : Place) : Except Fault (List Binding) := do
  let parameters := (function.field? "parameters").or (function.field? "parameter")
  let own := if Place.selfNamedKinds.contains function.kind then function.field? "name" else none
  let body := (function.field? "body").filter (·.kind == "statement_block")
  return (← s.bindEach .parameter (parameters.elim [] Place.boundNames))
    ++ (← s.bindOptional .functionName own)
    ++ (← gather s.hoistedBindings body.toList)

/-- What the head of a loop over a collection binds. -/
def loopHeadBindings (s : Source) (loop : Place) : Except Fault (List Binding) :=
  let keyword := loop.children.find? fun c ↦ c.kind == "const" || c.kind == "let"
  match loop.field? "left", keyword with
  | some left, some k => s.bindEach (.declared k.kind none) left.boundNames
  | _, _ => .ok []

/-- The names of a scope. Of two bindings of one name the first counts. -/
def declarations (s : Source) (scope : Place) : Except Fault (List Binding) :=
  if scope.isFunction then s.functionBindings scope
  else if scope.kind = "program" then do
    return (← s.blockBindings scope) ++ (← s.hoistedBindings scope)
  else if Place.blockKinds.contains scope.kind then s.blockBindings scope
  else match scope.kind with
    | "for_statement" =>
      gather s.declarationBindings
        ((scope.field? "initializer").filter (·.kind == "lexical_declaration")).toList
    | "for_in_statement" => s.loopHeadBindings scope
    | "catch_clause" =>
      s.bindEach .caught ((scope.field? "parameter").elim [] Place.boundNames)
    | _ => .ok []

end Source

end MessageExtraction
