import MessageExtraction.Text.Printable

namespace MessageExtraction.Text

/-- One character between quotes: the quote itself and the backslash are escaped, and what cannot
be shown is written as a number of two, four or eight digits. -/
def quotedPoint (quote c : CodePoint) : Text :=
  if c = quote ∨ c = CodePoint.backslash then [CodePoint.backslash, c]
  else if c = CodePoint.lineFeed then "\\n"
  else if c = CodePoint.carriageReturn then "\\r"
  else if c = CodePoint.tab then "\\t"
  else if isPrintable c then [c]
  else if c < 0x100 then ("\\x" : Text) ++ padLeft 2 0x30 (ofNatHex c)
  else if c < 0x10000 then ("\\u" : Text) ++ padLeft 4 0x30 (ofNatHex c)
  else ("\\U" : Text) ++ padLeft 8 0x30 (ofNatHex c)

/-- Single quotes, unless the text holds one and no double quote. -/
def quoteFor (t : Text) : CodePoint :=
  if t.contains CodePoint.singleQuote && !t.contains CodePoint.doubleQuote then
    CodePoint.doubleQuote
  else CodePoint.singleQuote

def quoted (t : Text) : Text :=
  quoteFor t :: t.flatMap (quotedPoint (quoteFor t)) ++ [quoteFor t]

end MessageExtraction.Text
