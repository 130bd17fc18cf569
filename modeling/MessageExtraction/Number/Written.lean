import MessageExtraction.Number.Shortest
import MessageExtraction.Text.Basic

namespace MessageExtraction.Number

/-- How doubles are written. -/
structure Format where
  /-- Exponents of the first digit from which on numbers are written with an exponent. -/
  positionalBelow : Int
  /-- Exponents of the first digit below which numbers are written with an exponent. -/
  positionalFrom : Int
  /-- Whether a whole number shows a fraction. -/
  keepsFraction : Bool
  /-- The least number of digits of an exponent. -/
  exponentWidth : Nat
  nan : String
  infinity : String

/-- The fewest digits that read back; positional from `0.0001` to below `10 ^ 16`, whole numbers with
`.0`, exponents with a sign and at least two digits. -/
def standard : Format := ⟨16, -4, true, 2, "nan", "inf"⟩

/-- Digits whose first one has the given exponent, without one written. -/
def positional (f : Format) (digits : Text) (top : Int) : Text :=
  if top < 0 then
    ("0." : Text) ++ List.replicate (top.natAbs - 1) 0x30 ++ digits
  else
    let whole := top.toNat + 1
    if digits.length ≤ whole then
      digits ++ List.replicate (whole - digits.length) 0x30
        ++ (if f.keepsFraction then (".0" : Text) else [])
    else digits.take whole ++ CodePoint.period :: digits.drop whole

def exponential (f : Format) (digits : Text) (top : Int) : Text :=
  let fraction := digits.drop 1
  digits.take 1 ++ (if fraction.isEmpty then [] else CodePoint.period :: fraction)
    ++ (if top < 0 then ("e-" : Text) else ("e+" : Text))
    ++ Text.padLeft f.exponentWidth 0x30 (Text.ofNat top.natAbs)

def written (f : Format) (x : Float) : Text :=
  let sign (negative : Bool) : Text := if negative then [CodePoint.hyphen] else []
  match Binary.ofFloat x with
  | .nan => Text.ofString f.nan
  | .infinite negative => sign negative ++ Text.ofString f.infinity
  | .finite negative 0 _ => sign negative ++ positional f [0x30] 0
  | .finite negative m e =>
    let d := Decimal.shortest m e
    let digits := Text.ofNat d.digits
    let top := d.exponent + digits.length - 1
    sign negative ++
      if f.positionalFrom ≤ top ∧ top < f.positionalBelow then positional f digits top
      else exponential f digits top

end MessageExtraction.Number
