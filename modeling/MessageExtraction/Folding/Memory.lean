import MessageExtraction.Folding.Fold

/-!
Folding with a memory. Many questions are asked about one source, so the table of a scope and the
names that are assigned to are worked out when they are first needed, and kept. The memory also holds
the declarations that are being followed, by which those that refer to themselves are found.
-/

namespace MessageExtraction

/-- What is kept of a source: the declarations that are being followed, the tables of scopes, and the
names that are assigned to. Places are kept by their paths. -/
structure Memory where
  resolving : List (List Nat) := []
  tables : List (List Nat × List Binding) := []
  reassigned? : Option (List Text) := none

/-- A computation with a memory, which outlasts a failure. -/
abbrev Recall (ε α : Type) := EStateM ε Memory α

namespace Recall

variable {ε α : Type}

/-- A computation that leaves the memory alone. -/
def of (x : Except ε α) : Recall ε α :=
  match x with
  | .ok a => pure a
  | .error e => throw e

instance : MonadLift (Except ε) (Recall ε) := ⟨of⟩

/-- What is kept, or else what comes of a computation, which is kept unless that fails. -/
def keeping (kept? : Memory → Option α) (keep : α → Memory → Memory) (x : Except ε α) :
    Recall ε α := do
  match kept? (← get) with
  | some a => return a
  | none =>
    let a ← of x
    modify (keep a)
    return a

/-- Follows a declaration, which counts as being followed until an end is reached. -/
def following (declaration : List Nat) (x : Recall ε α) : Recall ε α := do
  modify fun m ↦ { m with resolving := declaration :: m.resolving }
  try x finally modify fun m ↦ { m with resolving := m.resolving.erase declaration }

end Recall

/-! What names refer to, and the rules of folding, when tables and values are found by any means. -/

namespace Monadic

open Source

variable {m : Type → Type} [Monad m] [MonadLiftT (Except Fault) m]

def lookupIn (table : Place → m (List Binding)) (name : Text) : List Place → m (Option Binding)
  | [] => return none
  | scope :: outer => do
    match (← table scope).find? (·.name == name) with
    | some b => return some b
    | none => lookupIn table name outer

def lookup (table : Place → m (List Binding)) (p : Place) (name : Text) : m (Option Binding) :=
  lookupIn table name (p.ancestors.filter Place.isScope)

def lookupNode (s : Source) (table : Place → m (List Binding)) (p : Place) :
    m (Option Binding) := do
  lookup table p (← s.textOf p)

def isConstant (reassigned : m (List Text)) (b : Binding) : m Bool :=
  match b.kind with
  | .declared "const" _ => return true
  | .declared "let" _ | .declared "var" _ => do return !(← reassigned).contains b.name
  | _ => return false

def resolveImport (s : Source) (lookupNode : Place → m (Option Binding)) (p : Place) :
    m (Option (Text × Text)) :=
  if isName p then do
    match (← lookupNode p).map Binding.kind with
    | some (.imported module name) => return some (module, name)
    | _ => return none
  else if isMember p then
    match memberParts? p with
    | none => return none
    | some (object, property) =>
      if isName object then do
        match (← lookupNode object).map Binding.kind with
        | some (.wholeModule module) => return some (module, ← s.textOf property)
        | some (.imported module name) =>
          if name = "default" then return some (module, ← s.textOf property) else return none
        | _ => return none
      else return none
  else return none

end Monadic

namespace Monadic

open Folding

variable {m : Type → Type} [Monad m] [MonadLiftT (Except Stop) m] {α : Type}

def stop (why : Stop) : m α := liftM (Except.error why : Except Stop α)

def ofName (s : Source) (lookup : Place → Text → m (Option Binding)) (isConstant : Binding → m Bool)
    (follow : Binding → Place → m Value) (p : Place) : m Value := do
  let name ← lift (s.textOf p)
  match ← lookup p name with
  | none =>
    match globalConstant? name with
    | some v => return v
    | none => stop .notConstant
  | some b =>
    match b.value? with
    | none => stop .notConstant
    | some value => if ← isConstant b then follow b value else stop .notConstant

def ofOnlyPart (p : Place) (inner : Inner p → m Value) : m Value :=
  match partsOf p with
  | [q] => inner q
  | _ => stop .notConstant

def templatePiece (s : Source) (p : Place) (inner : Inner p → m Value) (c : Inner p) : m Text :=
  match c.1.kind with
  | "\x60" => return []
  | "escape_sequence" => do
    let t ← lift (s.textOf c.1)
    lift (Text.decodeEscape t)
  | "template_substitution" => do
    let v ← ofOnlyPart c.1 fun q ↦ inner (c.trans q)
    lift v.toText
  | _ => lift (s.textOf c.1)

def ofTemplate (s : Source) (p : Place) (inner : Inner p → m Value) : m Value := do
  return .text (← (childrenOf p).mapM (templatePiece s p inner)).flatten

def ofBinary (p : Place) (inner : Inner p → m Value) : m Value :=
  match fieldOf? p "operator", fieldOf? p "left", fieldOf? p "right" with
  | some operator, some left, some right => do
    let v ← inner left
    match operator.1.kind with
    | "&&" => if v.isTruthy then inner right else return v
    | "||" => if v.isTruthy then return v else inner right
    | "??" => if isNothing v then inner right else return v
    | other => do
      let w ← inner right
      operate other v w
  | _, _, _ => stop .notConstant

def ofUnary (p : Place) (inner : Inner p → m Value) : m Value :=
  match fieldOf? p "operator", fieldOf? p "argument" with
  | some operator, some argument =>
    if operator.1.kind = "void" then return .undefined
    else do
      let v ← inner argument
      operateAlone operator.1.kind v
  | _, _ => stop .notConstant

def ofField (p : Place) (inner : Inner p → m Value) (name : String) : m Value :=
  match fieldOf? p name with
  | some q => inner q
  | none => stop (.fault .missingNode)

def ofTernary (p : Place) (inner : Inner p → m Value) : m Value := do
  let condition ← ofField p inner "condition"
  ofField p inner (if condition.isTruthy then "consequence" else "alternative")

def ofArray (p : Place) (inner : Inner p → m Value) : m Value := do
  return .list (← (partsOf p).mapM fun c ↦
    if c.1.kind = "spread_element" then stop .notConstant else inner c)

def addMember (s : Source) (p : Place) (inner : Inner p → m Value) (byName : Place → m Value)
    (members : List (Text × Value)) (c : Inner p) : m (List (Text × Value)) :=
  match c.1.kind with
  | "pair" =>
    match fieldOf? c.1 "key", fieldOf? c.1 "value" with
    | some key, some value => do
      let name ← memberName s key.1
      return Value.insertMember name (← inner (c.trans value)) members
    | _, _ => stop .notConstant
  | "shorthand_property_identifier" => do
    let v ← byName c.1
    return Value.insertMember (← lift (s.textOf c.1)) v members
  | _ => stop .notConstant

def ofObject (s : Source) (p : Place) (inner : Inner p → m Value) (byName : Place → m Value) :
    m Value := do
  return .object (← (partsOf p).foldlM (addMember s p inner byName) [])

def rule (s : Source) (p : Place) (inner : Inner p → m Value) (byName : Place → m Value) :
    m Value :=
  if p.isWrapper then
    match partsOf p with
    | q :: _ => inner q
    | [] => stop .notConstant
  else match p.kind with
    | "string" => do return .text (← lift (s.stringValue p))
    | "template_string" => ofTemplate s p inner
    | "number" => do return .ofLiteral (← lift (s.numberValue p))
    | "true" => return .bool true
    | "false" => return .bool false
    | "null" => return .null
    | "undefined" => return .undefined
    | "identifier" => byName p
    | "jsx_expression" => ofOnlyPart p inner
    | "binary_expression" => ofBinary p inner
    | "unary_expression" => ofUnary p inner
    | "ternary_expression" => ofTernary p inner
    | "object" => ofObject s p inner byName
    | "array" => ofArray p inner
    | _ => stop .notConstant

end Monadic

namespace Recall

open Folding

/-- A failure to read a source, as a reason for having no value. -/
def lifted {α : Type} (x : Recall Fault α) : Recall Stop α := x.adaptExcept .fault

/-- Follows a declaration, unless that is being followed already. -/
def followingOnce {α : Type} (declaration : List Nat) (x : Recall Stop α) : Recall Stop α := do
  if (← get).resolving.contains declaration then throw .notConstant
  else following declaration x

end Recall

namespace Source

open Folding Recall

def recallTable (s : Source) (scope : Place) : Recall Fault (List Binding) :=
  keeping (fun m ↦ m.tables.lookup scope.path)
    (fun table m ↦ { m with tables := (scope.path, table) :: m.tables }) (s.declarations scope)

def recallReassigned (s : Source) : Recall Fault (List Text) :=
  keeping Memory.reassigned? (fun names m ↦ { m with reassigned? := some names }) s.reassigned

/-- The binding that a name refers to at a place. -/
def recallBinding (s : Source) (p : Place) (name : Text) : Recall Fault (Option Binding) :=
  Monadic.lookup s.recallTable p name

/-- The binding that a node refers to by the text it spans. -/
def recallNode (s : Source) (p : Place) : Recall Fault (Option Binding) :=
  Monadic.lookupNode s s.recallTable p

/-- Whether a binding is of a variable that is never given another value. -/
def recallConstant (s : Source) (b : Binding) : Recall Fault Bool :=
  Monadic.isConstant s.recallReassigned b

/-- The module and the name in it that a node refers to. -/
def recallImport (s : Source) (p : Place) : Recall Fault (Option (Text × Text)) :=
  Monadic.resolveImport s s.recallNode p

/-- Whether a node refers to a name of a module. -/
def recallReference (s : Source) (p : Place) (module name : Text) : Recall Fault Bool := do
  return (← s.recallImport p) == some (module, name)

/-- A name has the value of the constant that it refers to. -/
def evaluateName (s : Source) (follow : Binding → Place → Recall Stop Value) (p : Place) :
    Recall Stop Value :=
  Monadic.ofName s (fun q name ↦ lifted (s.recallBinding q name))
    (fun b ↦ lifted (s.recallConstant b)) follow p

/-- The value of an expression. A declaration that is not being followed is still pending, which shows
that an end is reached. -/
def evaluateWith (s : Source) (pending : List (List Nat)) (p : Place) : Recall Stop Value :=
  Monadic.rule s p (fun q ↦ s.evaluateWith pending q.1) <| s.evaluateName fun b value ↦
    followingOnce b.place.path <|
      if _h : b.place.path ∈ pending then s.evaluateWith (pending.erase b.place.path) value
      else throw .notConstant
termination_by (pending.length, sizeOf p.node)
decreasing_by
  · exact Prod.Lex.right _ q.2
  · refine Prod.Lex.left _ _ ?_
    rw [List.length_erase_of_mem _h]
    have := List.length_pos_of_mem _h
    omega

def evaluate (s : Source) (p : Place) : Recall Stop Value :=
  s.evaluateWith (s.places.map Place.path) p

end Source

/-- What can be asked about a source. -/
inductive Query where
  /-- The value of an expression. -/
  | value (p : Place)
  /-- What a name refers to at a place. -/
  | binding (p : Place) (name : Text)
  /-- What a node refers to by the text it spans. -/
  | reference (p : Place)
  /-- Whether a variable is never given another value. -/
  | constant (b : Binding)
  /-- The name of a module that a node refers to. -/
  | imported (p : Place)
  /-- Whether a node refers to a name of a module. -/
  | refers (p : Place) (module name : Text)

/-- How a question is answered, which may be by a failure. -/
inductive Answer where
  | value (outcome : Folding.Outcome)
  | binding (outcome : Except Fault (Option Binding))
  | truth (outcome : Except Fault Bool)
  | imported (outcome : Except Fault (Option (Text × Text)))

/-- The end of a computation, and the memory after it. -/
def Recall.runFrom {ε α : Type} (m : Memory) (x : Recall ε α) : Except ε α × Memory :=
  match x.run m with
  | .ok a m' => (.ok a, m')
  | .error e m' => (.error e, m')

namespace Source

/-- The answer to a question with what is kept so far, and what is kept then. -/
def ask (s : Source) (m : Memory) : Query → Answer × Memory
  | .value p => (Recall.runFrom m (s.evaluate p)).map .value id
  | .binding p name => (Recall.runFrom m (s.recallBinding p name)).map .binding id
  | .reference p => (Recall.runFrom m (s.recallNode p)).map .binding id
  | .constant b => (Recall.runFrom m (s.recallConstant b)).map .truth id
  | .imported p => (Recall.runFrom m (s.recallImport p)).map .imported id
  | .refers p module name => (Recall.runFrom m (s.recallReference p module name)).map .truth id

/-- What is kept after some questions, if nothing was before. -/
def memoryAfter (s : Source) (qs : List Query) : Memory :=
  qs.foldl (fun m q ↦ (s.ask m q).2) {}

end Source

end MessageExtraction
