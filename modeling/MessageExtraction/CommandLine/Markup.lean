import MessageExtraction.Text.Basic

/-!
Text with tags in square brackets that change how what follows is shown. Only the text itself
matters here: the tags are taken out. A backslash before a tag makes it text.
-/

namespace MessageExtraction.Markup

def opensTag (c : CodePoint) : Bool :=
  (0x61 ≤ c && c ≤ 0x7A) || c == CodePoint.hash || c == CodePoint.slash || c == 0x40

/-- Splits off the tag that a text begins with. -/
def tag? : Text → Option (Text × Text)
  | CodePoint.openBracket :: c :: t =>
    if opensTag c then
      let inside := t.takeWhile fun d ↦ d != CodePoint.openBracket && d != CodePoint.closeBracket
      match t.drop inside.length with
      | CodePoint.closeBracket :: rest =>
        some (CodePoint.openBracket :: c :: inside ++ [CodePoint.closeBracket], rest)
      | _ => none
    else none
  | _ => none

/-- A piece of a text with tags. -/
inductive Piece where
  | point (c : CodePoint)
  /-- A tag with so many backslashes before it. -/
  | tag (backslashes : Nat) (t : Text)
  deriving DecidableEq, Repr

/-- The tag that a text begins with, after any backslashes. -/
def escapedTag? (t : Text) : Option (Nat × Text × Text) :=
  let rest := t.dropWhile (· == CodePoint.backslash)
  (tag? rest).map fun (tag, after) ↦ (t.length - rest.length, tag, after)

/-- The pieces of a text. The first argument bounds their number. -/
def pieces : Nat → Text → List Piece
  | 0, _ | _, [] => []
  | n + 1, c :: t =>
    match escapedTag? (c :: t) with
    | some (backslashes, tag, after) => .tag backslashes tag :: pieces n after
    | none => .point c :: pieces n t

def backslashes (n : Nat) : Text := List.replicate n CodePoint.backslash

def Piece.escaped : Piece → Text
  | .point c => [c]
  | .tag n t => backslashes (2 * n + 1) ++ t

/-- A text that shows what it is given, tags and all. A single backslash at the end is doubled, so
that it escapes nothing that may follow. -/
def escape (t : Text) : Text :=
  let body := (pieces t.length t).flatMap Piece.escaped
  if Text.endsWith body "\\" && !Text.endsWith body "\\\\" then body ++ backslashes 1 else body

/-- Text between tags: a backslash before an opening bracket is left out. -/
def unescape : Text → Text
  | CodePoint.backslash :: CodePoint.openBracket :: t => CodePoint.openBracket :: unescape t
  | c :: t => c :: unescape t
  | [] => []

/-- The text of pieces, with the one between two tags gathered last character first. -/
def shownFrom (gathered : Text) : List Piece → Text
  | [] => unescape gathered.reverse
  | .point c :: rest => shownFrom (c :: gathered) rest
  | .tag n t :: rest =>
    unescape gathered.reverse ++ backslashes (n / 2) ++ (if n % 2 = 1 then t else [])
      ++ shownFrom [] rest

/-- What a text with tags shows. -/
def plain (t : Text) : Text :=
  if t.contains CodePoint.openBracket then shownFrom [] (pieces t.length t) else t

end MessageExtraction.Markup
