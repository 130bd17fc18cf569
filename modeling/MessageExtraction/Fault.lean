import MessageExtraction.Text.Quoted
import MessageExtraction.Text.Utf8

namespace MessageExtraction

/-- A failure that says nothing about where in a source it arose. -/
inductive Fault where
  /-- Bytes that had to be text are not. -/
  | undecodable (e : Utf8.DecodeError)
  /-- A surrogate stands in a text that had to be bytes. -/
  | unencodable
  /-- Digits that spell no integer in a base, zero meaning the base that the text announces. -/
  | notAnInteger (base : Nat) (digits : Text)
  | notANumber (digits : Text)
  /-- An integer with more decimal digits than are converted from or to a text. The number of digits
  is known when it was read. -/
  | tooManyDigits (read : Option Nat)
  /-- The remainder of an infinite number. -/
  | undefinedRemainder
  /-- The result has no double near it. -/
  | tooLarge
  | divisionByZero
  /-- An escape names a code point beyond the last. -/
  | noSuchCodePoint
  /-- An escape names a number that is no machine integer. -/
  | codePointOverflow
  /-- A part of the source that the tree does not have was needed. -/
  | missingNode
  /-- A value that cannot be an identifier was looked up as one. -/
  | unhashable
  /-- A message was recorded before its catalog was opened. -/
  | noCatalog
  /-- A field of a descriptor is of a kind that no catalog can hold. -/
  | invalidDescriptor
  deriving DecidableEq, Repr

namespace Fault

def message : Fault → Text
  | .undecodable e => e.message
  | .unencodable => "surrogates not allowed"
  | .notAnInteger base digits =>
    ("invalid literal for int() with base " : Text) ++ Text.ofNat base ++ (": " : Text)
      ++ Text.quoted digits
  | .notANumber digits => ("could not convert string to float: " : Text) ++ Text.quoted digits
  | .tooManyDigits read =>
    ("Exceeds the limit (4300 digits) for integer string conversion" : Text)
      ++ (match read with
        | some n => (": value has " : Text) ++ Text.ofNat n ++ (" digits" : Text)
        | none => [])
      ++ ("; use sys.set_int_max_str_digits() to increase the limit" : Text)
  | .undefinedRemainder => "math domain error"
  | .tooLarge => "number too large"
  | .divisionByZero => "division by zero"
  | .noSuchCodePoint => "chr() arg not in range(0x110000)"
  | .codePointOverflow => "code point too large"
  | .missingNode => "missing node"
  | .unhashable => "unhashable"
  | .noCatalog => "no catalog"
  | .invalidDescriptor => "invalid descriptor"

/-- The faults of a value that was out of its range, as against one of the wrong kind or size. -/
def isOfValue : Fault → Bool
  | .undecodable _ | .unencodable | .notAnInteger _ _ | .notANumber _ | .tooManyDigits _
  | .undefinedRemainder | .noSuchCodePoint | .invalidDescriptor => true
  | _ => false

end Fault

end MessageExtraction
