import MessageExtraction.Fault
import MessageExtraction.Number.Shortest
import MessageExtraction.Text.Blank
import MessageExtraction.Text.Digit

/-!
Numbers as a program spells them: decimal, with a base mark, as an old octal, or as a big integer.
-/

namespace MessageExtraction.Number

/-- What a literal stands for; a double that is whole counts as an integer. -/
inductive Literal where
  | int (n : Int)
  | float (x : Float)

/-- Decimal digits of any script become the ten of ASCII, and blanks outside ASCII the blank; what
is left outside ASCII can be no part of a number. -/
def plainPoint (c : CodePoint) : CodePoint :=
  if c < 0x7F then c
  else if CodePoint.isBlank c then CodePoint.space
  else match Text.decimalValue? c with
    | some v => 0x30 + v
    | none => CodePoint.question

def isSpacing (c : CodePoint) : Bool := (0x09 ≤ c && c ≤ 0x0D) || c == CodePoint.space

/-- The text of a number between the blanks around it. -/
def plain (t : Text) : Text :=
  Text.dropEndWhile isSpacing ((t.map plainPoint).dropWhile isSpacing)

/-- Takes a sign from the front. -/
def takeSign : Text → Bool × Text
  | CodePoint.hyphen :: rest => (true, rest)
  | CodePoint.plus :: rest => (false, rest)
  | rest => (false, rest)

def withSign (negative : Bool) (n : Nat) : Int := if negative then -(n : Int) else n

/-- The value of a digit in any base up to thirty-six. -/
def anyDigitValue? (c : CodePoint) : Option Nat :=
  if 0x61 ≤ c ∧ c ≤ 0x7A then some (c - 0x61 + 10)
  else if 0x41 ≤ c ∧ c ≤ 0x5A then some (c - 0x41 + 10)
  else CodePoint.digitValue? c

def digitIn? (base : Nat) (c : CodePoint) : Option Nat := (anyDigitValue? c).filter (· < base)

/-- Digits of one base; there has to be one. -/
def digits? (base : Nat) (t : Text) : Option Nat :=
  if t.isEmpty then none else Text.positional? base (digitIn? base) t

/-- The base that a mark after a leading zero announces. -/
def markedBase? (c : CodePoint) : Option Nat :=
  if c = 0x78 ∨ c = 0x58 then some 16
  else if c = 0x6F ∨ c = 0x4F then some 8
  else if c = 0x62 ∨ c = 0x42 then some 2
  else none

/-- The magnitude of an integer that announces its base; without a mark it is decimal, and then only
zero begins with a zero. -/
def announced? (t : Text) : Option Nat :=
  match t with
  | 0x30 :: c :: rest =>
    match markedBase? c with
    | some base => digits? base rest
    | none => if t.all (· == 0x30) then some 0 else none
  | _ => digits? 10 t

/-- Whether a text announces no base and so is read as decimal digits. -/
def isUnmarked : Text → Bool
  | 0x30 :: c :: _ => (markedBase? c).isNone
  | _ => true

def integer (t : Text) : Except Fault Int :=
  let (negative, body) := takeSign (plain t)
  match announced? body with
  | none => .error (.notAnInteger 0 t)
  | some n =>
    if isUnmarked body && Text.digitLimit < body.length then
      .error (.tooManyDigits (some body.length))
    else .ok (withSign negative n)

/-- Decimal digits of any script, without a sign. -/
def decimal (t : Text) : Except Fault Nat :=
  match digits? 10 (t.map plainPoint) with
  | none => .error (.notAnInteger 10 t)
  | some n => if Text.digitLimit < t.length then .error (.tooManyDigits (some t.length)) else .ok n

/-- Reads the exponent part of a decimal fraction; nothing at all is the exponent zero. -/
def exponent? : Text → Option Int
  | [] => some 0
  | 0x65 :: rest | 0x45 :: rest =>
    let (negative, body) := takeSign rest
    (digits? 10 body).map (withSign negative)
  | _ => none

/-- Reads digits with at most one point and perhaps an exponent. -/
def fraction? (t : Text) : Option Decimal :=
  let whole := t.takeWhile CodePoint.isDigit
  let after := t.drop whole.length
  let (part, rest) : Text × Text :=
    match after with
    | CodePoint.period :: more =>
      (more.takeWhile CodePoint.isDigit, more.dropWhile CodePoint.isDigit)
    | _ => ([], after)
  do
    let n ← digits? 10 (whole ++ part)
    let e ← exponent? rest
    return ⟨n, e - part.length⟩

def isInfinityName (t : Text) : Bool := t == Text.ofString "inf" || t == Text.ofString "infinity"

def float (t : Text) : Except Fault Float :=
  let (negative, body) := takeSign (plain t)
  if isInfinityName (Text.lower body) then .ok (Binary.signed negative (1 / 0))
  else if Text.lower body == Text.ofString "nan" then .ok (0 / 0)
  else match fraction? body with
    | some d => .ok (Binary.signed negative d.toFloat)
    | none => .error (.notANumber t)

def isOldOctal (t : Text) : Bool :=
  1 < t.length && t.head? == some 0x30 && t.all fun c ↦ 0x30 ≤ c && c ≤ 0x37

/-- The value of a numeric literal. Separators are dropped, a final `n` marks a big integer, a
leading zero before octal digits an octal one; all else goes through the nearest double. -/
def literal (t : Text) : Except Fault Literal :=
  let t := t.filter (· != CodePoint.underscore)
  if t.getLast? = some CodePoint.letterN then do return .int (← integer t.dropLast)
  else if t.head? = some 0x30 ∧ ((t[1]?).bind markedBase?).isSome then do
    return .int (← integer (Text.lower t))
  else if isOldOctal t then .ok (.int ((digits? 8 t).getD 0))
  else do
    let x ← float t
    return match Binary.toInt? x with
      | some n => .int n
      | none => .float x

end MessageExtraction.Number
