import MessageExtraction.Ignore.Glob
import MessageExtraction.Text.Blank

/-!
One line of a file of ignored paths. A line names a path from the directory of the file if it has a
slash before its end, and otherwise a name at any depth; `**` stands for directories at any depth;
a slash at the end asks for a directory; an exclamation mark takes back what lines before have
ignored.
-/

namespace MessageExtraction.Ignore

/-- Why a line is no pattern. -/
inductive PatternError where
  /-- Nothing is left to match. -/
  | empty
  /-- A backslash with nothing behind it. -/
  | openEscape
  deriving DecidableEq, Repr

/-- The paths that a line speaks of. -/
inductive Shape where
  | anything
  /-- Whatever is in a directory, or is one. -/
  | anythingNested
  | parts (globs : List Glob)
  deriving DecidableEq, Repr

def Shape.covers : Shape → Text → Bool
  | .anything, path => !path.isEmpty
  | .anythingNested, path => path.contains CodePoint.slash
  | .parts globs, path => Glob.match? globs path

/-- Reads what stands in brackets as ranges; a hyphen at either end stands for itself. -/
def ranges : Text → List (CodePoint × CodePoint)
  | low :: CodePoint.hyphen :: high :: rest => (low, high) :: ranges rest
  | c :: rest => (c, c) :: ranges rest
  | [] => []

/-- Splits the text after an opening bracket at the bracket that closes it; one that comes first
does not. -/
def closing? (t : Text) : Option (Text × Text) :=
  let (first, others) := match t with
    | CodePoint.closeBracket :: others => ([CodePoint.closeBracket], others)
    | _ => ([], t)
  let inside := others.takeWhile (· != CodePoint.closeBracket)
  match others.drop inside.length with
  | _ :: after => some (first ++ inside, after)
  | [] => none

/-- Reads a list in brackets from after the opening one. -/
def bracketed? : Text → Option (CharacterSet × Text)
  | c :: t =>
    let isNegated := c == CodePoint.exclamation || c == CodePoint.caret
    (closing? (if isNegated then t else c :: t)).map fun (inside, after) ↦
      (.listed isNegated (ranges inside), after)
  | [] => none

/-- Reads the wildcards of one name. The first argument bounds the number of characters. -/
def nameGlobs : Nat → Text → Except PatternError (List Glob)
  | 0, _ | _, [] => .ok []
  | _, [CodePoint.backslash] => .error .openEscape
  | n + 1, CodePoint.backslash :: c :: t => (nameGlobs n t).map (.one (.just c) :: ·)
  | n + 1, CodePoint.asterisk :: t => (nameGlobs n t).map (.run :: ·)
  | n + 1, CodePoint.question :: t => (nameGlobs n t).map (.one .withinName :: ·)
  | n + 1, CodePoint.openBracket :: t =>
    match bracketed? t with
    | some (s, after) => (nameGlobs n after).map (.one s :: ·)
    | none => (nameGlobs n t).map (.one (.just CodePoint.openBracket) :: ·)
  | n + 1, c :: t => (nameGlobs n t).map (.one (.just c) :: ·)

/-- A name of a pattern. -/
inductive Segment where
  /-- Directories at any depth. -/
  | deep
  | anyName
  | wild (globs : List Glob)
  deriving DecidableEq, Repr

def Segment.ofText (t : Text) : Except PatternError Segment :=
  if t = "**" then .ok .deep
  else if t = "*" then .ok .anyName
  else (nameGlobs t.length t).map .wild

/-- The names of a pattern: one name alone may stand at any depth, and what ends with a slash
covers what is in the directory. -/
def anchor (names : List Text) : List Text :=
  let names := match names with
    | [] :: rest => rest
    | [only] | [only, []] =>
      if only = "**" then names else Text.ofString "**" :: names
    | _ => names
  match names.getLast? with
  | some [] => names.dropLast ++ [Text.ofString "**"]
  | _ => names

/-- Directories at any depth, twice in a row, are the same as once. -/
def collapse : List Segment → List Segment
  | .deep :: .deep :: rest => collapse (.deep :: rest)
  | s :: rest => s :: collapse rest
  | [] => []

def slashIf (isNeeded : Bool) : List Glob :=
  if isNeeded then [.one (.just CodePoint.slash)] else []

/-- The parts that names become, a slash between each two. -/
def globsFrom (needsSlash : Bool) : List Segment → List Glob
  | [] => []
  | [.deep] => slashIf true
  | .deep :: rest => .between :: globsFrom true rest
  | [.anyName] => slashIf needsSlash ++ [.name, .close]
  | .anyName :: rest => slashIf needsSlash ++ .name :: globsFrom true rest
  | [.wild globs] => slashIf needsSlash ++ globs ++ [.border]
  | .wild globs :: rest => slashIf needsSlash ++ globs ++ globsFrom true rest

def shapeOf (isDirectory : Bool) : List Segment → Shape
  | [.deep] => if isDirectory then .anythingNested else .anything
  | [.deep, .anyName] => .anything
  | [.deep, .anyName, .deep] => .anythingNested
  | .deep :: rest => .parts (.leading :: globsFrom false rest)
  | segments => .parts (globsFrom false segments)

/-- What a line has to say of the paths it speaks of. -/
structure Rule where
  ignores : Bool
  shape : Shape
  deriving DecidableEq, Repr

/-- A line without the blanks at its end, unless the last one is escaped. -/
def lineBody (line : Text) : Text :=
  if line.endsWith "\\ " then line else Text.trimEnd line

/-- The paths that a pattern speaks of. -/
def Shape.ofText (pattern : Text) : Except PatternError Shape := do
  let names := Text.splitAt CodePoint.slash pattern
  let isDirectory := names.getLast? == some [] && pattern != [CodePoint.slash]
  let segments ← (anchor names).mapM Segment.ofText
  if segments.isEmpty then throw .empty
  return shapeOf isDirectory (collapse segments)

/-- The rule of a line; blank lines and those that begin with a hash have none. -/
def Rule.ofLine (line : Text) : Except PatternError (Option Rule) :=
  match lineBody line with
  | [] | CodePoint.hash :: _ => .ok none
  | CodePoint.exclamation :: pattern => (Shape.ofText pattern).map fun s ↦ some ⟨false, s⟩
  | pattern => (Shape.ofText pattern).map fun s ↦ some ⟨true, s⟩

/-- The path as patterns see it: from the directory, without a slash or a dot before it. -/
def pathBody : Text → Text
  | CodePoint.slash :: path => path
  | CodePoint.period :: CodePoint.slash :: path => path
  | path => path

/-- The line takes back what lines before it have ignored. -/
def TakesBack (line : Text) : Prop := (lineBody line).head? = some CodePoint.exclamation

instance : DecidablePred TakesBack := fun _ ↦ inferInstanceAs (Decidable (_ = _))

theorem Rule.ignores_iff {line : Text} {r : Rule} (h : Rule.ofLine line = .ok (some r)) :
    r.ignores = true ↔ ¬TakesBack line := by
  have hignores {b : Bool} {pattern : Text}
      (h : (Shape.ofText pattern).map (fun s ↦ some ⟨b, s⟩) = .ok (some r)) : r.ignores = b := by
    cases hs : Shape.ofText pattern <;> rw [hs] at h <;> cases h
    rfl
  rw [Rule.ofLine] at h
  rw [TakesBack]
  split at h
  · cases h
  · cases h
  · rename_i hbody
    simp [hignores h, hbody]
  · rename_i hbody
    cases hline : lineBody line with
    | nil => simp [hignores h]
    | cons c rest =>
      have hc : c ≠ CodePoint.exclamation := fun hc ↦ hbody rest (by rw [hline, hc])
      simpa [hignores h] using hc

/-- A way of reading lines as rules: the rule of a line, if it has one, the paths that a rule covers, and
whether it ignores them or takes them back, which an exclamation mark before the line says. -/
structure Dialect (ρ ε : Type) where
  ofLine : Text → Except ε (Option ρ)
  covers : ρ → Text → Bool
  ignores : ρ → Bool
  ignores_iff : ∀ {line r}, ofLine line = .ok (some r) → (ignores r = true ↔ ¬TakesBack line)

namespace Dialect

variable {ρ ε : Type}

/-- The rules of lines, in order. -/
def rulesOf (d : Dialect ρ ε) (lines : List Text) : Except ε (List ρ) := do
  return (← lines.mapM d.ofLine).filterMap id

/-- Whether a path is ignored: the last rule that covers it decides. -/
def decides (d : Dialect ρ ε) (rules : List ρ) (path : Text) : Bool :=
  ((rules.filter (d.covers · path)).getLast?).any d.ignores

end Dialect

/-- The lines of files for git. -/
def gitignore : Dialect Rule PatternError where
  ofLine := Rule.ofLine
  covers r path := r.shape.covers (pathBody path)
  ignores := Rule.ignores
  ignores_iff := Rule.ignores_iff

end MessageExtraction.Ignore
