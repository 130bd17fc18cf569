import MessageExtraction.Text.Basic

namespace MessageExtraction

/-- The characters that trimming removes: controls that space, and the separators of Unicode but
neither the zero-width space nor the byte order mark. -/
def CodePoint.isBlank (c : CodePoint) : Bool :=
  (0x09 ≤ c && c ≤ 0x0D) || (0x1C ≤ c && c ≤ 0x20) || c == 0x85 || c == 0xA0 || c == 0x1680
    || (0x2000 ≤ c && c ≤ 0x200A) || c == 0x2028 || c == 0x2029 || c == 0x202F || c == 0x205F
    || c == 0x3000

namespace Text

def dropEndWhile (p : CodePoint → Bool) (t : Text) : Text := (t.reverse.dropWhile p).reverse

def trimStart (t : Text) : Text := t.dropWhile CodePoint.isBlank

def trimEnd (t : Text) : Text := dropEndWhile CodePoint.isBlank t

def trim (t : Text) : Text := trimEnd (trimStart t)

end Text

end MessageExtraction
