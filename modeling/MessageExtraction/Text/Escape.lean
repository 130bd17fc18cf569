import MessageExtraction.Fault

namespace MessageExtraction.Text

/-- The digits of an escape that names a code point: `\xHH`, `\uHHHH` or `\u` with digits in braces. -/
def codePointDigits? : Text → Option Text
  | [CodePoint.backslash, 0x78, a, b] => some [a, b]
  | [CodePoint.backslash, CodePoint.letterU, a, b, c, d] =>
    if a = CodePoint.openBrace ∧ d = CodePoint.closeBrace then some [b, c] else some [a, b, c, d]
  | CodePoint.backslash :: CodePoint.letterU :: CodePoint.openBrace :: rest =>
    match rest.reverse with
    | CodePoint.closeBrace :: digits => if digits.isEmpty then none else some digits.reverse
    | _ => none
  | _ => none

def codePointOf (n : Nat) : Except Fault Text :=
  if 0x80000000 ≤ n then .error .codePointOverflow
  else if 0x10FFFF < n then .error .noSuchCodePoint
  else .ok [n]

/-- The character a letter after a backslash stands for. -/
def simpleEscape? : CodePoint → Option CodePoint
  | 0x6E => some CodePoint.lineFeed
  | 0x72 => some CodePoint.carriageReturn
  | 0x74 => some CodePoint.tab
  | 0x62 => some CodePoint.backspace
  | 0x66 => some CodePoint.formFeed
  | 0x76 => some CodePoint.verticalTab
  | 0x30 => some 0
  | _ => none

def endsSourceLine (c : CodePoint) : Bool :=
  c == CodePoint.lineFeed || c == CodePoint.carriageReturn || c == 0x2028 || c == 0x2029

/-- What one escape sequence stands for. A broken line stands for nothing, and an escape with no
meaning of its own for what follows its first character. -/
def decodeEscape (t : Text) : Except Fault Text :=
  match (codePointDigits? t).bind (positional? 16 CodePoint.hexValue?) with
  | some n => codePointOf n
  | none =>
    match t with
    | _ :: c :: rest =>
      if endsSourceLine c then .ok []
      else match rest, simpleEscape? c with
        | [], some d => .ok [d]
        | _, _ => .ok (c :: rest)
    | _ => .ok t

end MessageExtraction.Text
