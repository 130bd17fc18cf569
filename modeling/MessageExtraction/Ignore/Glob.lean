import MessageExtraction.Text.Basic

/-!
Wildcards for paths. A wildcard stands for characters of one name, except that a list in brackets
may also name the slash.
-/

namespace MessageExtraction

/-- What one character of a path may be. -/
inductive CharacterSet where
  | just (c : CodePoint)
  | withinName
  /-- Ranges with both ends, or all that is outside of them. -/
  | listed (isNegated : Bool) (ranges : List (CodePoint × CodePoint))
  deriving DecidableEq, Repr

def CharacterSet.has : CharacterSet → CodePoint → Bool
  | .just d, c => c == d
  | .withinName, c => c != CodePoint.slash
  | .listed isNegated ranges, c => isNegated != ranges.any fun (low, high) ↦ low ≤ c && c ≤ high

/-- A part of a pattern for paths. -/
inductive Glob where
  | one (s : CharacterSet)
  /-- Any characters of a name. -/
  | run
  /-- A whole name, whatever it is. -/
  | name
  /-- Nothing, or directories up to a slash. -/
  | leading
  /-- Nothing, or a slash and directories after it. -/
  | between
  /-- A slash, after which anything may stand, or the end. -/
  | border
  /-- The end, with or without a slash before it. -/
  | close
  deriving DecidableEq, Repr

namespace Glob

/-- What is left of a text after each number of characters that a test holds for. -/
def leftovers (p : CodePoint → Bool) : Text → List Text
  | [] => [[]]
  | c :: t => (c :: t) :: if p c then leftovers p t else []

def onLine (c : CodePoint) : Bool := c != CodePoint.lineFeed

/-- What is left after one character or more. -/
def leftoversOfSome (p : CodePoint → Bool) : Text → List Text
  | [] => []
  | c :: t => if p c then leftovers p t else []

/-- The end of a path; a line feed there is not counted. -/
def isEnd (t : Text) : Bool := t.isEmpty || t == [CodePoint.lineFeed]

def afterSlash? : Text → Option Text
  | CodePoint.slash :: t => some t
  | _ => none

/-- What may be left of a text after a part has taken its share. -/
def rests : Glob → Text → List Text
  | .one s, c :: t => if s.has c then [t] else []
  | .one _, [] => []
  | .run, t => leftovers CharacterSet.withinName.has t
  | .name, t => leftoversOfSome CharacterSet.withinName.has t
  | .leading, t => t :: (leftoversOfSome onLine t).filterMap afterSlash?
  | .between, t => t :: (afterSlash? t).elim [] (leftoversOfSome onLine)
  | .border, t => if isEnd t then [t] else (afterSlash? t).toList
  | .close, t => if isEnd t || (afterSlash? t).any isEnd then [t] else []

/-- Whether parts match the beginning of a text, one after another. -/
def match? : List Glob → Text → Bool
  | [], _ => true
  | g :: gs, t => (g.rests t).any (match? gs)

end Glob

end MessageExtraction
