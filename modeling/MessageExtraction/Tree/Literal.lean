import MessageExtraction.Number.Literal
import MessageExtraction.Text.CharacterReference
import MessageExtraction.Text.Escape
import MessageExtraction.Tree.Source

namespace MessageExtraction.Source

/-- What one child of a string node contributes. In an attribute of a markup element a backslash has
no meaning. -/
def stringPiece (s : Source) (isAttribute : Bool) (c : Place) : Except Fault Text :=
  if c.kind = "\"" ∨ c.kind = "'" then .ok []
  else do
    let t ← s.textOf c
    if c.kind = "escape_sequence" ∧ !isAttribute then Text.decodeEscape t
    else if c.kind = "html_character_reference" then Text.unescapeReferences t
    else return t

/-- The value of a string node. -/
def stringValue (s : Source) (p : Place) : Except Fault Text := do
  let isAttribute := p.parent?.any (·.kind == "jsx_attribute")
  return (← p.children.mapM (s.stringPiece isAttribute)).flatten

/-- The value of a number node. -/
def numberValue (s : Source) (p : Place) : Except Fault Number.Literal := do
  Number.literal (← s.textOf p)

end MessageExtraction.Source
