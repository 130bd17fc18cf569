import MessageExtraction.Pattern.Basic

namespace MessageExtraction.Pattern

/-- Text with its braces and backslashes escaped; a backslash before a number sign already is one. -/
def printText : Text → Text
  | [] => []
  | CodePoint.backslash :: CodePoint.hash :: rest =>
    CodePoint.backslash :: CodePoint.hash :: printText rest
  | c :: rest =>
    if c = CodePoint.openBrace ∨ c = CodePoint.closeBrace ∨ c = CodePoint.backslash then
      CodePoint.backslash :: c :: printText rest
    else c :: printText rest

def inBraces (t : Text) : Text := CodePoint.openBrace :: t ++ [CodePoint.closeBrace]

def separator : Text := [CodePoint.comma, CodePoint.space]

def printStyle : Option Text → Text
  | some style => separator ++ style
  | none => []

def printOffset (offset : Nat) : Text :=
  if offset = 0 then [] else (", offset:" : Text) ++ Text.ofNat offset

mutual

def printElement : Element → Text
  | .text t => printText t
  | .argument name => inBraces name
  | .formatted name kind style => inBraces (name ++ separator ++ kind.name ++ printStyle style)
  | .choice name kind offset options =>
    inBraces (name ++ separator ++ kind.name ++ printOffset offset ++ CodePoint.comma
      :: printOptions options)

def printOptions : List (Text × List Element) → Text
  | [] => []
  | (selector, pattern) :: rest =>
    CodePoint.space :: selector ++ CodePoint.space :: inBraces (print pattern) ++ printOptions rest

/-- A pattern in its canonical form. -/
def print : List Element → Text
  | [] => []
  | e :: rest => printElement e ++ print rest

end

end MessageExtraction.Pattern
