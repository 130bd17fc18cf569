import MessageExtraction.Number.Literal

namespace MessageExtraction

namespace Pattern

/-- The formats that take at most a style. -/
inductive SimpleKind where
  | number
  | date
  | time
  deriving DecidableEq, Repr

/-- The formats that choose one of several patterns. -/
inductive ChoiceKind where
  | plural
  | selectordinal
  | select
  deriving DecidableEq, Repr

def SimpleKind.name : SimpleKind → Text
  | .number => "number"
  | .date => "date"
  | .time => "time"

def ChoiceKind.name : ChoiceKind → Text
  | .plural => "plural"
  | .selectordinal => "selectordinal"
  | .select => "select"

def SimpleKind.ofName? (t : Text) : Option SimpleKind :=
  [.number, .date, .time].find? (·.name == t)

def ChoiceKind.ofName? (t : Text) : Option ChoiceKind :=
  [.plural, .selectordinal, .select].find? (·.name == t)

/-- Whether the choice is made by a number, from which an offset may be taken. -/
def ChoiceKind.takesOffset : ChoiceKind → Bool
  | .plural | .selectordinal => true
  | .select => false

end Pattern

/-- A part of a message. In a text, a backslash before a number sign is kept. -/
inductive Element where
  | text (t : Text)
  | argument (name : Text)
  | formatted (name : Text) (kind : Pattern.SimpleKind) (style : Option Text)
  | choice (name : Text) (kind : Pattern.ChoiceKind) (offset : Nat)
      (options : List (Text × List Element))

/-- A message with arguments, as a sequence of its parts. -/
abbrev Pattern := List Element

end MessageExtraction
