import MessageExtraction.Pattern.Parser
import MessageExtraction.Tree.Rejection

namespace MessageExtraction

/-- What can be wrong with the declaration of a message. -/
inductive Complaint where
  /-- A field has no constant value. -/
  | notEvaluable
  /-- The default message is shown and is no text. -/
  | notAText (shown : Text)
  | malformed (e : Pattern.SyntaxError)
  /-- Backslashes were doubled in an attribute, where they escape nothing. -/
  | escapedAttribute
  /-- The id, the file and the point at which it was first declared otherwise. -/
  | duplicateId (id file : Text) (first : Position)
  | missingDescription
  | missingArgument
  | notALiteral
  | invalidId
  deriving DecidableEq, Repr

namespace Complaint

def kind : Complaint → RejectionKind
  | .notEvaluable => .notEvaluable
  | .notAText _ | .malformed _ => .templateSyntax
  | .escapedAttribute => .escapingMismatch
  | .duplicateId _ _ _ => .duplicateId
  | .missingDescription => .missingDescription
  | .missingArgument | .notALiteral => .expectedLiteral
  | .invalidId => .invalidId

def failedToParse : Text := "[React Intl] Message failed to parse. "

def guideUrl : Text := "http://formatjs.io/guides/message-syntax/"

def gotchasUrl : Text := "http://facebook.github.io/react/docs/jsx-gotchas.html"

/-- The function whose calls name a message by its id alone. -/
def functionName : Text := "formatIntlMessage"

def message : Complaint → Text
  | .notEvaluable => "[React Intl] Messages must be statically evaluate-able for extraction."
  | .notAText shown =>
    failedToParse ++ ("See: " : Text) ++ guideUrl ++ CodePoint.lineFeed
      :: ("Expected a string message, got " : Text) ++ shown ++ [CodePoint.period]
  | .malformed e => failedToParse ++ ("See: " : Text) ++ guideUrl ++ CodePoint.lineFeed :: e.message
  | .escapedAttribute =>
    failedToParse ++ ("It looks like `\\`s were used for escaping, " : Text)
      ++ ("this won't work with JSX string literals. Wrap with `\x7b\x7d`. See: " : Text)
      ++ gotchasUrl
  | .duplicateId id file first =>
    ("[React Intl] Duplicate message id: \"" : Text) ++ id
      ++ ("\", but the `description` and/or `defaultMessage` are different. " : Text)
      ++ ("First declared at " : Text) ++ file ++ CodePoint.colon :: Text.ofNat first.line
      ++ CodePoint.colon :: Text.ofNat first.column ++ [CodePoint.period]
  | .missingDescription => "[React Intl] Message must have a `description`."
  | .missingArgument =>
    ("[React Intl] `" : Text) ++ functionName
      ++ ("()` must be called with a literal message id." : Text)
  | .notALiteral =>
    ("[React Intl] The first argument of `" : Text) ++ functionName
      ++ ("()` must be a string or number literal." : Text)
  | .invalidId => "[React Intl] Message Descriptors require a string or number `id`."

end Complaint

/-- The failure that a complaint about a node is. -/
def Source.complain (s : Source) (p : Place) (c : Complaint) : Failure :=
  .rejected (s.reject c.kind p c.message)

end MessageExtraction
