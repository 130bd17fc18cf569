import MessageExtraction.CommandLine.Markup
import MessageExtraction.Extraction.Log
import MessageExtraction.Text.Quoted

namespace MessageExtraction

/-- Something that a command prints. -/
inductive Printed where
  | text (t : Text)
  | table (title : Text) (rows : List (List Text))
  deriving DecidableEq, Repr

namespace Printed

/-- The characters that move the cursor are not printed. -/
def isDropped (c : CodePoint) : Bool :=
  c == 7 || c == CodePoint.backspace || c == CodePoint.verticalTab || c == CodePoint.formFeed
    || c == CodePoint.carriageReturn

def tabWidth : Nat := 8

/-- Replaces tabs by blanks up to the next stop, from a column on. -/
def expandTabs (column : Nat) : Text → Text
  | [] => []
  | CodePoint.tab :: t =>
    let width := tabWidth - column % tabWidth
    List.replicate width CodePoint.space ++ expandTabs 0 t
  | CodePoint.lineFeed :: t => CodePoint.lineFeed :: expandTabs 0 t
  | c :: t => c :: expandTabs (column + 1) t

/-- A text as it is printed. -/
def shown (t : Text) : Text := expandTabs 0 (t.filter fun c ↦ !isDropped c)

def texts : Printed → List Text
  | .text t => [t]
  | .table title rows => title :: rows.flatten

/-- Whether it can be written as bytes. -/
def isEncodable (p : Printed) : Bool := !p.texts.any fun t ↦ t.any CodePoint.isSurrogate

/-- The lines that a row of a table is drawn in, the cells side by side. -/
def rowLines (row : List Text) : List (List Text) :=
  let cells := row.map (Text.splitAt CodePoint.lineFeed)
  let height := cells.foldl (fun n cell ↦ max n cell.length) 0
  (List.range height).map fun i ↦ cells.map fun cell ↦ cell.getD i []

end Printed

/-- A text for the stream of errors, where what cannot be encoded is written as an escape. -/
def Text.escapeSurrogates (t : Text) : Text :=
  t.flatMap fun c ↦ if c.isSurrogate then ("\\u" : Text) ++ ofNatHex c else [c]

namespace LogEvent

def level (e : LogEvent) : Text := if e.isWarning then "warning" else "debug"

/-- Characters because of which a text is put between quotes. -/
def quotedFor : Text := " \t=\r\n\"'"

def Detail.shown : Detail → Text
  | .text t => if t.any quotedFor.contains then Text.quoted t else t
  | .number n => Text.ofNat n

/-- An event on one line: the time, the level, what happened, and the details by name. -/
def line (time : Text) (e : LogEvent) : Text :=
  time ++ (" [" : Text) ++ Text.padRight 9 e.level ++ ("] " : Text) ++ Text.padRight 30 e.message
    ++ e.details.flatMap fun (name, d) ↦
      CodePoint.space :: name ++ CodePoint.equals :: d.shown

end LogEvent

end MessageExtraction
