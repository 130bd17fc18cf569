import MessageExtraction.Fault
import MessageExtraction.Text.Blank
import MessageExtraction.Tree.Basic

namespace MessageExtraction

/-- A point of a source: lines count from one, columns in characters from zero. -/
structure Position where
  line : Nat
  column : Nat
  deriving DecidableEq, Repr

/-- A parsed file: its name as given, its path from the working directory, its bytes and their
tree. -/
structure Source where
  filename : Text
  path : Text
  bytes : Bytes
  tree : Node
  hasErrors : Bool

namespace Source

def root (s : Source) : Place := .root s.tree

/-- Every place of the tree, each before those below it. -/
def places (s : Source) : List Place := s.root.subtree

def bytesOf (s : Source) (p : Place) : Bytes :=
  (s.bytes.drop p.node.start).take (p.node.stop - p.node.start)

/-- The text that a node spans. -/
def textOf (s : Source) (p : Place) : Except Fault Text :=
  (Utf8.decode (s.bytesOf p)).mapError .undecodable

def lineFeed : UInt8 := 0x0A

/-- The bytes after the last line feed. -/
def afterLastLine (bytes : Bytes) : Bytes := (bytes.reverse.takeWhile (· != lineFeed)).reverse

/-- The point before which so many bytes stand. -/
def position (s : Source) (offset : Nat) : Position :=
  let before := s.bytes.take offset
  { line := before.count lineFeed + 1
    column := (Utf8.decodeReplacing (afterLastLine before)).length }

def startOf (s : Source) (p : Place) : Position := s.position p.node.start

def stopOf (s : Source) (p : Place) : Position := s.position p.node.stop

def splitLines : Bytes → List Bytes
  | [] => [[]]
  | b :: rest =>
    match splitLines rest with
    | [] => [[b]]
    | line :: lines => if b = lineFeed then [] :: line :: lines else (b :: line) :: lines

def lines (s : Source) : List Bytes := splitLines s.bytes

/-- How many lines a frame shows on either side. -/
def frameMargin : Nat := 2

def blanks (n : Nat) : Text := List.replicate n CodePoint.space

def frameLine (width number : Nat) (isMarked : Bool) (line : Bytes) : Text :=
  let shown := Text.dropEndWhile (· == CodePoint.carriageReturn) (Utf8.decodeReplacing line)
  Text.trimEnd ((if isMarked then ("> " : Text) else ("  " : Text))
    ++ Text.padLeft width CodePoint.space (Text.ofNat number) ++ (" | " : Text) ++ shown)

def caretLine (width column : Nat) : Text :=
  blanks (2 + width) ++ (" | " : Text) ++ blanks column ++ [CodePoint.caret]

/-- The lines around the start of a node, its own marked and with a caret below. -/
def frame (s : Source) (p : Place) : Text :=
  let start := s.startOf p
  let first := max 1 (start.line - frameMargin)
  let last := min s.lines.length (start.line + frameMargin)
  let width := (Text.ofNat last).length
  let shown := (s.lines.take last).drop (first - 1)
  Text.joinWith [CodePoint.lineFeed] <| (shown.mapIdx fun i line ↦
    let number := first + i
    if number = start.line then
      [frameLine width number true line, caretLine width start.column]
    else [frameLine width number false line]).flatten

end Source

end MessageExtraction
