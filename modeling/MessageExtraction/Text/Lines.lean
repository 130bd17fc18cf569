import MessageExtraction.Text.Basic

namespace MessageExtraction

/-- The characters that end a line; a carriage return and a line feed together end one. -/
def CodePoint.endsLine (c : CodePoint) : Bool :=
  (0x0A ≤ c && c ≤ 0x0D) || (0x1C ≤ c && c ≤ 0x1E) || c == 0x85 || c == 0x2028 || c == 0x2029

namespace Text

/-- Lines with the current one gathered so far, last character first; an ending at the end of the
text opens no further line. -/
def linesFrom (current : Text) : Text → List Text
  | [] => if current.isEmpty then [] else [current.reverse]
  | CodePoint.carriageReturn :: CodePoint.lineFeed :: rest => current.reverse :: linesFrom [] rest
  | c :: rest => if CodePoint.endsLine c then current.reverse :: linesFrom [] rest
    else linesFrom (c :: current) rest

def lines (t : Text) : List Text := linesFrom [] t

end Text

end MessageExtraction
