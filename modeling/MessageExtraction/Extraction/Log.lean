import MessageExtraction.Text.Basic

namespace MessageExtraction

/-- What is reported while a source is worked on. -/
inductive LogEvent where
  /-- Something in a file that the user should know of, with its line if it has one. -/
  | warning (message file : Text) (line : Option Nat)
  /-- A file is done, with so many messages. -/
  | extracted (file : Text) (messages : Nat)
  /-- A catalog was written, with so many messages. -/
  | written (path : Text) (messages : Nat)
  deriving DecidableEq, Repr

namespace LogEvent

def isWarning : LogEvent → Bool
  | .warning _ _ _ => true
  | _ => false

/-- What happened, in words. -/
def message : LogEvent → Text
  | .warning message _ _ => message
  | .extracted _ _ => "file extracted"
  | .written _ _ => "catalog written"

/-- A detail of an event. -/
inductive Detail where
  | text (t : Text)
  | number (n : Nat)
  deriving DecidableEq, Repr

/-- The details of an event, by name. -/
def details : LogEvent → List (Text × Detail)
  | .warning _ file none => [("file", .text file)]
  | .warning _ file (some line) => [("file", .text file), ("line", .number line)]
  | .extracted file messages => [("file", .text file), ("messages", .number messages)]
  | .written path messages => [("messages", .number messages), ("path", .text path)]

end LogEvent

end MessageExtraction
