import MessageExtraction.Text.Basic

namespace MessageExtraction

/-- A path by its segments; dots that stand for the directory itself are left out. -/
structure Path where
  /-- The slashes that an absolute path begins with. -/
  root : Text
  segments : List Text
  deriving DecidableEq, Repr

namespace Path

def isNamed (segment : Text) : Bool := !segment.isEmpty && segment != [CodePoint.period]

/-- The leading slashes that count: two of them are kept, more are one. -/
def rootOf (t : Text) : Text :=
  match (t.takeWhile (· == CodePoint.slash)).length with
  | 0 => []
  | 2 => [CodePoint.slash, CodePoint.slash]
  | _ => [CodePoint.slash]

def ofText (t : Text) : Path := ⟨rootOf t, (Text.splitAt CodePoint.slash t).filter isNamed⟩

instance : Coe String Path := ⟨fun s ↦ ofText (Text.ofString s)⟩

def toText (p : Path) : Text :=
  if p.root.isEmpty && p.segments.isEmpty then [CodePoint.period]
  else p.root ++ Text.joinWith [CodePoint.slash] p.segments

def isAbsolute (p : Path) : Bool := !p.root.isEmpty

/-- A path taken from another; an absolute one stands for itself. -/
def join (p q : Path) : Path := if q.isAbsolute then q else ⟨p.root, p.segments ++ q.segments⟩

/-- The path of something by its name in a directory. -/
def child (p : Path) (name : Text) : Path := ⟨p.root, p.segments ++ [name]⟩

def name (p : Path) : Text := p.segments.getLast?.getD []

def parent (p : Path) : Path := ⟨p.root, p.segments.dropLast⟩

/-- The beginning and the end of a name at its last dot, if that is neither its first nor its last
character. -/
def splitName (name : Text) : Text × Text :=
  let ending := (name.reverse.takeWhile (· != CodePoint.period)).length
  let cut := name.length - ending - 1
  if ending < name.length ∧ 0 < ending ∧ 0 < cut then (name.take cut, name.drop cut) else (name, [])

def stem (p : Path) : Text := (splitName p.name).1

def suffix (p : Path) : Text := (splitName p.name).2

def dotDot : Text := [CodePoint.period, CodePoint.period]

/-- Takes one step from segments that are given last first; there is nothing above the root. -/
def step (reversed : List Text) (segment : Text) : List Text :=
  if segment = dotDot then reversed.drop 1 else segment :: reversed

/-- The segments of an absolute path with every step back taken. -/
def normalized (segments : List Text) : List Text := (segments.foldl step []).reverse

/-- What is left of two lists after what they begin with alike. -/
def dropShared : List Text → List Text → List Text × List Text
  | x :: xs, y :: ys => if x = y then dropShared xs ys else (x :: xs, y :: ys)
  | xs, ys => (xs, ys)

/-- The way to a path from a directory, both absolute. -/
def relativeTo (p base : Path) : Path :=
  let (below, up) := dropShared (normalized p.segments) (normalized base.segments)
  ⟨[], up.map (fun _ ↦ dotDot) ++ below⟩

/-- The segments below a directory that a path begins with, as they are written. -/
def below? (p base : Path) : Option Path :=
  if p.root = base.root then
    match dropShared base.segments p.segments with
    | ([], rest) => some ⟨[], rest⟩
    | _ => none
  else none

/-- The path of a source file from the working directory. -/
def ofSource (filename cwd : Path) : Path := (cwd.join filename).relativeTo cwd

/-- The file that holds the catalog of a source: its own path under the directory for messages, the
steps that lead out of the working directory left out. -/
def ofCatalog (messages filename cwd : Path) : Path :=
  let source := ofSource filename cwd
  let directories := source.parent.segments.filter (· != dotDot)
  ⟨messages.root, messages.segments ++ directories ++ [source.stem ++ (".json" : Text)]⟩

end Path

end MessageExtraction
