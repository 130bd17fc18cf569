import MessageExtraction.Json.Basic

namespace MessageExtraction.Json

/-- Where a written value breaks its lines. -/
inductive Layout where
  /-- Never. -/
  | inline
  /-- Before every item, at so many blanks for each level. -/
  | indented (width : Nat)

def escapedPoint (c : CodePoint) : Text :=
  if c = CodePoint.doubleQuote then "\\\""
  else if c = CodePoint.backslash then "\\\\"
  else if c = CodePoint.lineFeed then "\\n"
  else if c = CodePoint.carriageReturn then "\\r"
  else if c = CodePoint.tab then "\\t"
  else if c = CodePoint.backspace then "\\b"
  else if c = CodePoint.formFeed then "\\f"
  else if c < 0x20 then ("\\u" : Text) ++ Text.padLeft 4 0x30 (Text.ofNatHex c)
  else [c]

def stringText (t : Text) : Text :=
  CodePoint.doubleQuote :: t.flatMap escapedPoint ++ [CodePoint.doubleQuote]

/-- Doubles as the fewest digits that read back, whole ones with `.0`. -/
def numberFormat : Number.Format := ⟨16, -4, true, 2, "NaN", "Infinity"⟩

def lineBreak (layout : Layout) (level : Nat) : Text :=
  match layout with
  | .inline => []
  | .indented width => CodePoint.lineFeed :: List.replicate (width * level) CodePoint.space

def itemBreak (layout : Layout) (level : Nat) : Text :=
  match layout with
  | .inline => [CodePoint.comma, CodePoint.space]
  | .indented _ => CodePoint.comma :: lineBreak layout level

mutual

def printAt (layout : Layout) (level : Nat) : Json → Except Fault Text
  | .null => .ok "null"
  | .bool b => .ok (if b then "true" else "false")
  | .int n => Value.integerText n
  | .float x => .ok (Number.written numberFormat x)
  | .text t => .ok (stringText t)
  | .list [] => .ok [CodePoint.openBracket, CodePoint.closeBracket]
  | .list (item :: rest) => do
    let first ← printAt layout (level + 1) item
    let others ← printItems layout (level + 1) rest
    return CodePoint.openBracket :: lineBreak layout (level + 1) ++ first ++ others
      ++ lineBreak layout level ++ [CodePoint.closeBracket]
  | .object [] => .ok [CodePoint.openBrace, CodePoint.closeBrace]
  | .object ((name, j) :: rest) => do
    let first ← printAt layout (level + 1) j
    let others ← printMembers layout (level + 1) rest
    return CodePoint.openBrace :: lineBreak layout (level + 1) ++ stringText name
      ++ [CodePoint.colon, CodePoint.space] ++ first ++ others
      ++ lineBreak layout level ++ [CodePoint.closeBrace]

/-- The items after the first, each with the comma before it. -/
def printItems (layout : Layout) (level : Nat) : List Json → Except Fault Text
  | [] => .ok []
  | item :: rest => do
    let first ← printAt layout level item
    return itemBreak layout level ++ first ++ (← printItems layout level rest)

/-- The members after the first, each with the comma before it. -/
def printMembers (layout : Layout) (level : Nat) : List (Text × Json) → Except Fault Text
  | [] => .ok []
  | (name, j) :: rest => do
    let first ← printAt layout level j
    return itemBreak layout level ++ stringText name ++ [CodePoint.colon, CodePoint.space]
      ++ first ++ (← printMembers layout level rest)

end

/-- A value as text; an integer with too many digits cannot be written. -/
def print (layout : Layout) (j : Json) : Except Fault Text := printAt layout 0 j

end MessageExtraction.Json
