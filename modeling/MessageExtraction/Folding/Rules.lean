import MessageExtraction.Scope.Lookup
import MessageExtraction.Value.Arithmetic

/-!
How each kind of expression gets its value from the values of the expressions in it. Finding those
is left to a function that is given.
-/

namespace MessageExtraction.Folding

/-- Why an expression has no value: it is not constant, or computing it failed. -/
inductive Stop where
  | notConstant
  | fault (f : Fault)
  deriving DecidableEq, Repr

abbrev Outcome := Except Stop Value

def lift (x : Except Fault α) : Except Stop α := x.mapError .fault

/-- A place whose node is smaller than that of another. -/
abbrev Inner (p : Place) := {q : Place // sizeOf q.node < sizeOf p.node}

def Inner.trans {p : Place} (c : Inner p) (q : Inner c.1) : Inner p :=
  ⟨q.1, Nat.lt_trans q.2 c.2⟩

def childrenOf (p : Place) : List (Inner p) :=
  p.children.attach.map fun ⟨c, h⟩ ↦ ⟨c, Place.sizeOf_node_lt h⟩

def partsOf (p : Place) : List (Inner p) :=
  p.parts.attach.map fun ⟨c, h⟩ ↦ ⟨c, Place.sizeOf_node_lt (Place.mem_children_of_mem_parts h)⟩

def fieldOf? (p : Place) (name : String) : Option (Inner p) :=
  match h : p.field? name with
  | some c => some ⟨c, Place.sizeOf_node_lt (Place.mem_children_of_field? h)⟩
  | none => none

/-- The names that have a value without being declared. -/
def globalConstant? (name : Text) : Option Value :=
  if name = "undefined" then some .undefined
  else if name = "NaN" then some .nan
  else if name = "Infinity" then some (.float (1 / 0))
  else none

/-- A name has the value of the constant that it refers to. -/
def ofName (s : Source) (follow : Binding → Place → Outcome) (p : Place) : Outcome := do
  let name ← lift (s.textOf p)
  match ← lift (s.lookup p name) with
  | none =>
    match globalConstant? name with
    | some v => return v
    | none => throw .notConstant
  | some b =>
    match b.value? with
    | none => throw .notConstant
    | some value => if ← lift (s.isConstant b) then follow b value else throw .notConstant

/-- Exactly one part, which has the value of the whole. -/
def ofOnlyPart (p : Place) (inner : Inner p → Outcome) : Outcome :=
  match partsOf p with
  | [q] => inner q
  | _ => .error .notConstant

/-- One piece of a template. -/
def templatePiece (s : Source) (p : Place) (inner : Inner p → Outcome) (c : Inner p) :
    Except Stop Text :=
  match c.1.kind with
  | "\x60" => .ok []
  | "escape_sequence" => do lift (Text.decodeEscape (← lift (s.textOf c.1)))
  | "template_substitution" => do
    let v ← ofOnlyPart c.1 fun q ↦ inner (c.trans q)
    lift v.toText
  | _ => lift (s.textOf c.1)

def ofTemplate (s : Source) (p : Place) (inner : Inner p → Outcome) : Outcome := do
  return .text (← (childrenOf p).mapM (templatePiece s p inner)).flatten

/-- An operation on numbers. -/
def onNumbers (f : Value.Operand → Value.Operand → Outcome) (v w : Value) : Outcome :=
  match v.operand?, w.operand? with
  | some a, some b => f a b
  | _, _ => .error .notConstant

/-- A division has no constant value when the divisor is zero. -/
def byNonzero (f : Value.Operand → Value.Operand → Except Fault Value) (a b : Value.Operand) :
    Outcome :=
  if b.isZero then .error .notConstant else lift (f a b)

def plus (v w : Value) : Outcome :=
  if v.isText || w.isText then do
    let s ← lift v.toText
    let t ← lift w.toText
    return .text (s ++ t)
  else onNumbers (fun a b ↦ lift (Value.add a b)) v w

/-- The operators that need both operands. -/
def operate (operator : String) (v w : Value) : Outcome :=
  match operator with
  | "+" => plus v w
  | "===" => .ok (.bool (v.strictEqual w))
  | "!==" => .ok (.bool (!v.strictEqual w))
  | "-" => onNumbers (fun a b ↦ lift (Value.sub a b)) v w
  | "*" => onNumbers (fun a b ↦ lift (Value.mul a b)) v w
  | "/" => onNumbers (byNonzero Value.div) v w
  | "%" => onNumbers (byNonzero Value.rem) v w
  | "**" => onNumbers (fun a b ↦ lift (Value.pow a b)) v w
  | _ => .error .notConstant

def isNothing : Value → Bool
  | .null | .undefined => true
  | _ => false

def ofBinary (p : Place) (inner : Inner p → Outcome) : Outcome :=
  match fieldOf? p "operator", fieldOf? p "left", fieldOf? p "right" with
  | some operator, some left, some right => do
    let v ← inner left
    match operator.1.kind with
    | "&&" => if v.isTruthy then inner right else return v
    | "||" => if v.isTruthy then return v else inner right
    | "??" => if isNothing v then inner right else return v
    | other => operate other v (← inner right)
  | _, _, _ => .error .notConstant

/-- The operators that need one operand. -/
def operateAlone (operator : String) (v : Value) : Outcome :=
  match operator, v.operand? with
  | "!", _ => .ok (.bool (!v.isTruthy))
  | "-", some a => .ok (Value.negate a)
  | "+", some _ => .ok v
  | _, _ => .error .notConstant

def ofUnary (p : Place) (inner : Inner p → Outcome) : Outcome :=
  match fieldOf? p "operator", fieldOf? p "argument" with
  | some operator, some argument =>
    if operator.1.kind = "void" then .ok .undefined
    else do operateAlone operator.1.kind (← inner argument)
  | _, _ => .error .notConstant

/-- The value of a field that has to be there. -/
def ofField (p : Place) (inner : Inner p → Outcome) (name : String) : Outcome :=
  match fieldOf? p name with
  | some q => inner q
  | none => .error (.fault .missingNode)

def ofTernary (p : Place) (inner : Inner p → Outcome) : Outcome := do
  let condition ← ofField p inner "condition"
  ofField p inner (if condition.isTruthy then "consequence" else "alternative")

def ofArray (p : Place) (inner : Inner p → Outcome) : Outcome := do
  return .list (← (partsOf p).mapM fun c ↦
    if c.1.kind = "spread_element" then .error .notConstant else inner c)

/-- The name of a member; one that is computed is not known. -/
def memberName (s : Source) (p : Place) : Except Stop Text :=
  match p.kind with
  | "property_identifier" | "private_property_identifier" => lift (s.textOf p)
  | "string" => lift (s.stringValue p)
  | "number" => do
    let n ← lift (s.numberValue p)
    lift (Value.ofLiteral n).toText
  | _ => .error .notConstant

/-- Adds one member to those before it. -/
def addMember (s : Source) (p : Place) (inner : Inner p → Outcome) (byName : Place → Outcome)
    (members : List (Text × Value)) (c : Inner p) : Except Stop (List (Text × Value)) :=
  match c.1.kind with
  | "pair" =>
    match fieldOf? c.1 "key", fieldOf? c.1 "value" with
    | some key, some value => do
      let name ← memberName s key.1
      return Value.insertMember name (← inner (c.trans value)) members
    | _, _ => .error .notConstant
  | "shorthand_property_identifier" => do
    let v ← byName c.1
    return Value.insertMember (← lift (s.textOf c.1)) v members
  | _ => .error .notConstant

def ofObject (s : Source) (p : Place) (inner : Inner p → Outcome) (byName : Place → Outcome) :
    Outcome := do
  return .object (← (partsOf p).foldlM (addMember s p inner byName) [])

/-- The value of an expression, given the values of smaller ones and of constants. -/
def rule (s : Source) (p : Place) (inner : Inner p → Outcome)
    (follow : Binding → Place → Outcome) : Outcome :=
  if p.isWrapper then
    match partsOf p with
    | q :: _ => inner q
    | [] => .error .notConstant
  else match p.kind with
    | "string" => do return .text (← lift (s.stringValue p))
    | "template_string" => ofTemplate s p inner
    | "number" => do return .ofLiteral (← lift (s.numberValue p))
    | "true" => .ok (.bool true)
    | "false" => .ok (.bool false)
    | "null" => .ok .null
    | "undefined" => .ok .undefined
    | "identifier" => ofName s follow p
    | "jsx_expression" => ofOnlyPart p inner
    | "binary_expression" => ofBinary p inner
    | "unary_expression" => ofUnary p inner
    | "ternary_expression" => ofTernary p inner
    | "object" => ofObject s p inner (ofName s follow)
    | "array" => ofArray p inner
    | _ => .error .notConstant

end MessageExtraction.Folding
