import MessageExtraction.Fault
import MessageExtraction.Text.Digit
import MessageExtraction.Text.NamedReference

/-!
Character references of markup text: `&#233;`, `&#xe9;` and `&eacute;`.
-/

namespace MessageExtraction.Text

/-- The characters that the numbers from 128 to 159 stand for; the gaps stand for themselves. -/
def legacyReferences : List CodePoint := [
  0x20AC, 0x81, 0x201A, 0x192, 0x201E, 0x2026, 0x2020, 0x2021,
  0x2C6, 0x2030, 0x160, 0x2039, 0x152, 0x8D, 0x17D, 0x8F,
  0x90, 0x2018, 0x2019, 0x201C, 0x201D, 0x2022, 0x2013, 0x2014,
  0x2DC, 0x2122, 0x161, 0x203A, 0x153, 0x9D, 0x17E, 0x178]

/-- The numbers that name no character and leave nothing behind. -/
def isDroppedReference (n : Nat) : Bool :=
  (1 ≤ n && n ≤ 8) || n == 0x0B || (0x0E ≤ n && n ≤ 0x1F) || (0x7F ≤ n && n ≤ 0x9F)
    || (0xFDD0 ≤ n && n ≤ 0xFDEF) || n % 0x10000 == 0xFFFE || n % 0x10000 == 0xFFFF

def numericReference (n : Nat) : Text :=
  if n = 0 then [CodePoint.replacement]
  else if 0x80 ≤ n ∧ n ≤ 0x9F then (legacyReferences[n - 0x80]?).toList
  else if CodePoint.isSurrogate n ∨ 0x10FFFF < n then [CodePoint.replacement]
  else if isDroppedReference n then []
  else [n]

/-- A name that is not known gives the longest of its beginnings that is, and keeps the rest. -/
def longestBeginning (name : Text) : Nat → Option Text
  | 0 => none
  | 1 => none
  | k + 2 =>
    match namedReference? (name.take (k + 2)) with
    | some known => some (known ++ name.drop (k + 2))
    | none => longestBeginning name (k + 1)

def nameReference (name : Text) : Text :=
  match namedReference? name with
  | some known => known
  | none => (longestBeginning name (name.length - 1)).getD (CodePoint.ampersand :: name)

/-- Takes the semicolon that may close a reference. -/
def takeSemicolon : Text → Text × Text
  | CodePoint.semicolon :: rest => ([CodePoint.semicolon], rest)
  | rest => ([], rest)

def endsName (c : CodePoint) : Bool :=
  c == CodePoint.tab || c == CodePoint.lineFeed || c == CodePoint.formFeed || c == CodePoint.space
    || c == 0x3C || c == CodePoint.ampersand || c == CodePoint.hash || c == CodePoint.semicolon

/-- What the digits of a number stand for. Of decimal digits there can be too many. -/
def digitReference? (base : Nat) (digits : Text) : Option (Except Fault Text) :=
  (positional? base CodePoint.hexValue? digits).map fun n ↦
    if base = 10 ∧ digitLimit < digits.length then .error (.tooManyDigits (some digits.length))
    else .ok (numericReference n)

/-- What a reference stands for, given the text after its ampersand, and how many characters of
that text it takes. -/
def reference? : Text → Option (Except Fault Text × Nat)
  | CodePoint.hash :: rest =>
    let (digits, marker, base) : Text × Nat × Nat :=
      match rest with
      | 0x78 :: more | 0x58 :: more => (more.takeWhile CodePoint.isHex, 2, 16)
      | _ => (rest.takeWhile CodePoint.isDigit, 1, 10)
    if digits.isEmpty then none
    else do
      let replaced ← digitReference? base digits
      let after := rest.drop (marker - 1 + digits.length)
      some (replaced, marker + digits.length + (takeSemicolon after).1.length)
  | t =>
    let name := (t.take 32).takeWhile (!endsName ·)
    if name.isEmpty then none
    else
      let closing := (takeSemicolon (t.drop name.length)).1
      some (.ok (nameReference (name ++ closing)), name.length + closing.length)

/-- Replaces every character reference of a text. -/
def unescapeReferences : Text → Except Fault Text
  | [] => .ok []
  | CodePoint.ampersand :: rest =>
    match reference? rest with
    | some (replaced, taken) => do return (← replaced) ++ (← unescapeReferences (rest.drop taken))
    | none => (unescapeReferences rest).map (CodePoint.ampersand :: ·)
  | c :: rest => (unescapeReferences rest).map (c :: ·)
termination_by t => t.length
decreasing_by all_goals simp only [List.length_drop, List.length_cons]; omega

end MessageExtraction.Text
