import MessageExtraction.Extraction.State

namespace MessageExtraction.Extraction

/-- The components whose messages are extracted. -/
def components : List Text := ["FormattedMessage", "FormattedHTMLMessage"]

/-- The components that take messages which are not extracted. -/
def unsupportedComponents : List Text := ["FormattedPlural"]

/-- The attributes of an element with a name; spread attributes are none. -/
def attributes (element : Place) : List Descriptor.Written :=
  (element.parts.filter (·.kind == "jsx_attribute")).filterMap fun a ↦
    match a.parts with
    | [] => none
    | name :: rest => some ⟨name, rest.head?⟩

def unsupportedWarning (line : Nat) (component : Text) : Text :=
  ("[React Intl] Line " : Text) ++ Text.ofNat line
    ++ (": Default messages are not extracted from <" : Text) ++ component
    ++ (">, use <FormattedMessage> instead." : Text)

/-- Takes the description of an element out of the source, where it has no use. -/
def removeDescription (x : Extraction) (fields : List (Descriptor.Field × Descriptor.Written)) :
    Extraction :=
  match (fields.lookup .description).bind (·.name.parent?) with
  | some a => x.remove a
  | none => x

/-- Records the message of an element that has a default message. -/
def declareElement (p : Place) : Work Unit := do
  let x ← get
  let fields ← liftExcept (x.source.collectFields (attributes p))
  if (fields.lookup Descriptor.Field.defaultMessage).isNone then return
  let d ← liftExcept (x.source.evaluateDescriptor fields)
  record d p
  modify (·.removeDescription fields)
  modify (·.mark p)

/-- The component of the module for messages that an element's name refers to. -/
def component? (x : Extraction) (p : Place) : Except Failure (Option Text) :=
  match p.field? "name" with
  | none => .ok none
  | some name => do
    match ← Source.faulty (x.source.resolveImport name) with
    | none => return none
    | some (module, component) =>
      return if module = x.options.moduleName then some component else none

/-- What an opening or self-closing element declares. -/
def visitElement (p : Place) : Work Unit := do
  let x ← get
  if x.isMarked p then return
  match ← liftExcept (x.component? p) with
  | none => return
  | some component =>
    if unsupportedComponents.contains component then
      modify (·.warn (unsupportedWarning (x.source.startOf p).line component) p)
    else if components.contains component then declareElement p

/-- Whether a call is of the function that takes a message's id. -/
def isMessageCall (x : Extraction) (callee : Place) : Except Failure Bool :=
  let callee := callee.unwrapped
  match callee.kind with
  | "identifier" => do
    return (← Source.faulty (x.source.textOf callee)) == Complaint.functionName
  | "member_expression" =>
    match callee.field? "property" with
    | none => .ok false
    | some property => do
      return (← Source.faulty (x.source.textOf property)) == Complaint.functionName
  | _ => .ok false

/-- The arguments of a call in parentheses. -/
def arguments (call : Place) : List Place :=
  match call.field? "arguments" with
  | some list => if list.kind = "arguments" then list.parts else []
  | none => []

/-- The id that a literal is. -/
def literalId (x : Extraction) (p : Place) : Except Failure Value :=
  match p.kind with
  | "string" => do return .text (← Source.faulty (x.source.stringValue p))
  | "number" => do return .ofLiteral (← Source.faulty (x.source.numberValue p))
  | _ => .error (x.source.complain p .notALiteral)

/-- What a call declares: the message of the id that it is given. -/
def visitCall (p : Place) : Work Unit :=
  match p.field? "function" with
  | none => return
  | some callee => do
    let x ← get
    if !(← liftExcept (x.isMessageCall callee)) then return
    match arguments p with
    | [] => throw (x.source.complain p .missingArgument)
    | first :: _ =>
      if x.isMarked first then return
      let id ← liftExcept (x.literalId first)
      record { Descriptor.empty with id := id } first
      modify (·.mark first)

/-- What is tried on a node, by its kind. -/
def recognizers (kind : String) : List (Place → Work Unit) :=
  match kind with
  | "jsx_opening_element" | "jsx_self_closing_element" => [visitElement]
  | "call_expression" => [visitCall]
  | _ => []

/-- How a visit of a node ends, and the state that it leaves. -/
def visit (x : Extraction) (p : Place) : EStateM.Result Failure Extraction Unit :=
  ((recognizers p.kind).forM fun recognizer ↦ recognizer p).run x

end MessageExtraction.Extraction
