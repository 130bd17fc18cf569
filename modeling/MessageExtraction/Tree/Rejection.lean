import MessageExtraction.Tree.Source

namespace MessageExtraction

/-- The kinds of errors that point at a place in a source. -/
inductive RejectionKind where
  | general
  | notEvaluable
  | templateSyntax
  | escapingMismatch
  | duplicateId
  | missingDescription
  | expectedLiteral
  | invalidId
  deriving DecidableEq, Repr

/-- The kind that a kind is a case of. -/
def RejectionKind.broader? : RejectionKind → Option RejectionKind
  | .general => none
  | .escapingMismatch => some .templateSyntax
  | _ => some .general

/-- A kind with all that it is a case of. -/
def RejectionKind.lineage (k : RejectionKind) : List RejectionKind :=
  match k.broader? with
  | none => [k]
  | some .general => [k, .general]
  | some broader => [k, broader, .general]

/-- An error in a source, with as much of its place as is known. -/
structure Rejection where
  kind : RejectionKind
  message : Text
  file : Option Text
  line : Option Int
  column : Option Int
  frame : Text
  deriving DecidableEq, Repr

/-- The file, line and column before the message, and the frame below it. -/
def Rejection.text (r : Rejection) : Text :=
  let place : Text :=
    match r.file with
    | none | some [] => []
    | some file =>
      let point : Text :=
        match r.line with
        | some line => CodePoint.colon :: Text.ofInt line ++ CodePoint.colon
            :: Text.ofInt (r.column.getD 0)
        | none => []
      file ++ point ++ (": " : Text)
  place ++ r.message ++ (if r.frame.isEmpty then [] else CodePoint.lineFeed :: r.frame)

/-- An error located at a node. -/
def Source.reject (s : Source) (kind : RejectionKind) (p : Place) (message : Text) : Rejection :=
  let start := s.startOf p
  { kind := kind
    message := message
    file := some s.path
    line := some start.line
    column := some start.column
    frame := s.frame p }

/-- Why extraction from a source ended: an error of the source, or a fault. -/
inductive Failure where
  | rejected (r : Rejection)
  | fault (f : Fault)
  deriving DecidableEq, Repr

end MessageExtraction
