namespace MessageExtraction

/-- A Unicode code point. Surrogates are code points like any other: an escape may spell one
alone, and a pair of them is never joined. -/
abbrev CodePoint := Nat

abbrev Text := List CodePoint

namespace CodePoint

@[match_pattern] abbrev backspace : CodePoint := 0x08
@[match_pattern] abbrev tab : CodePoint := 0x09
@[match_pattern] abbrev lineFeed : CodePoint := 0x0A
@[match_pattern] abbrev verticalTab : CodePoint := 0x0B
@[match_pattern] abbrev formFeed : CodePoint := 0x0C
@[match_pattern] abbrev carriageReturn : CodePoint := 0x0D
@[match_pattern] abbrev space : CodePoint := 0x20
@[match_pattern] abbrev exclamation : CodePoint := 0x21
@[match_pattern] abbrev doubleQuote : CodePoint := 0x22
@[match_pattern] abbrev hash : CodePoint := 0x23
@[match_pattern] abbrev ampersand : CodePoint := 0x26
@[match_pattern] abbrev singleQuote : CodePoint := 0x27
@[match_pattern] abbrev asterisk : CodePoint := 0x2A
@[match_pattern] abbrev plus : CodePoint := 0x2B
@[match_pattern] abbrev comma : CodePoint := 0x2C
@[match_pattern] abbrev hyphen : CodePoint := 0x2D
@[match_pattern] abbrev period : CodePoint := 0x2E
@[match_pattern] abbrev slash : CodePoint := 0x2F
@[match_pattern] abbrev colon : CodePoint := 0x3A
@[match_pattern] abbrev semicolon : CodePoint := 0x3B
@[match_pattern] abbrev equals : CodePoint := 0x3D
@[match_pattern] abbrev question : CodePoint := 0x3F
@[match_pattern] abbrev openBracket : CodePoint := 0x5B
@[match_pattern] abbrev backslash : CodePoint := 0x5C
@[match_pattern] abbrev closeBracket : CodePoint := 0x5D
@[match_pattern] abbrev caret : CodePoint := 0x5E
@[match_pattern] abbrev underscore : CodePoint := 0x5F
@[match_pattern] abbrev letterN : CodePoint := 0x6E
@[match_pattern] abbrev letterU : CodePoint := 0x75
@[match_pattern] abbrev openBrace : CodePoint := 0x7B
@[match_pattern] abbrev closeBrace : CodePoint := 0x7D

/-- The character shown where something could not be read. -/
def replacement : CodePoint := 0xFFFD

def isSurrogate (c : CodePoint) : Bool := 0xD800 ≤ c && c ≤ 0xDFFF

/-- The value of a hexadecimal digit of either letter case. -/
def hexValue? (c : CodePoint) : Option Nat :=
  if 0x30 ≤ c ∧ c ≤ 0x39 then some (c - 0x30)
  else if 0x41 ≤ c ∧ c ≤ 0x46 then some (c - 0x41 + 10)
  else if 0x61 ≤ c ∧ c ≤ 0x66 then some (c - 0x61 + 10)
  else none

def isHex (c : CodePoint) : Bool := (hexValue? c).isSome

/-- The value of one of the ten digits `0` to `9`. -/
def digitValue? (c : CodePoint) : Option Nat :=
  if 0x30 ≤ c ∧ c ≤ 0x39 then some (c - 0x30) else none

def isDigit (c : CodePoint) : Bool := (digitValue? c).isSome

/-- The small letter of a Latin capital letter; anything else is itself. -/
def lower (c : CodePoint) : CodePoint := if 0x41 ≤ c ∧ c ≤ 0x5A then c + 0x20 else c

end CodePoint

namespace Text

def ofString (s : String) : Text := s.toList.map Char.toNat

instance : Coe String Text := ⟨ofString⟩

/-- The decimal spelling of a natural number. -/
def ofNat (n : Nat) : Text := (Nat.toDigits 10 n).map Char.toNat

def ofInt : Int → Text
  | .ofNat n => ofNat n
  | .negSucc n => CodePoint.hyphen :: ofNat (n + 1)

/-- The hexadecimal spelling of a natural number, in small letters. -/
def ofNatHex (n : Nat) : Text := (Nat.toDigits 16 n).map Char.toNat

/-- Fills a text with a character on the left up to a width. -/
def padLeft (width : Nat) (fill : CodePoint) (t : Text) : Text :=
  List.replicate (width - t.length) fill ++ t

/-- Fills a text with blanks on the right up to a width. -/
def padRight (width : Nat) (t : Text) : Text :=
  t ++ List.replicate (width - t.length) CodePoint.space

/-- The text that is left when a given beginning is taken away. -/
def dropBeginning? : Text → Text → Option Text
  | [], t => some t
  | _ :: _, [] => none
  | c :: cs, d :: ds => if c = d then dropBeginning? cs ds else none

def startsWith (t beginning : Text) : Bool := beginning.isPrefixOf t

def endsWith (t ending : Text) : Bool := ending.isSuffixOf t

/-- Whether a part stands somewhere in a text. -/
def hasPart (part : Text) : Text → Bool
  | [] => part.isEmpty
  | c :: cs => part.isPrefixOf (c :: cs) || hasPart part cs

/-- The parts between the occurrences of one character, in order; there is always one. -/
def splitAt (separator : CodePoint) : Text → List Text
  | [] => [[]]
  | c :: cs =>
    match splitAt separator cs with
    | [] => [[c]]
    | part :: parts => if c = separator then [] :: part :: parts else (c :: part) :: parts

def joinWith (separator : Text) : List Text → Text
  | [] => []
  | [t] => t
  | t :: ts => t ++ separator ++ joinWith separator ts

def lower (t : Text) : Text := t.map CodePoint.lower

/-- Order by code points, a beginning before what it begins. -/
def le : Text → Text → Bool
  | [], _ => true
  | _ :: _, [] => false
  | c :: cs, d :: ds => c < d || (c == d && le cs ds)

/-- Reads digits by the value each has, most significant first; none if one has no value. -/
def positional? (base : Nat) (value? : CodePoint → Option Nat) : Text → Option Nat :=
  fun t ↦ t.foldl (fun total c ↦ do return (← total) * base + (← value? c)) (some 0)

end Text

end MessageExtraction
