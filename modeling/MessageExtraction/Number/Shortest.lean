import MessageExtraction.Number.Binary

namespace MessageExtraction

/-- `digits * 10 ^ exponent`. -/
structure Decimal where
  digits : Nat
  exponent : Int
  deriving DecidableEq, Repr

namespace Decimal

/-- A positive number as a quotient, with the ends of the interval of numbers that round to it as
quotients of the same denominator. -/
structure Interval where
  low : Nat
  value : Nat
  high : Nat
  den : Nat
  closed : Bool

/-- The interval of `mantissa * 2 ^ exponent`: half way to both neighbours, the lower one being
nearer when the mantissa is the least of its binade. The ends belong to it iff the mantissa is even. -/
def interval (mantissa : Nat) (exponent : Int) : Interval :=
  let below := if mantissa = Binary.twoTo 52 ∧ -1074 < exponent then 1 else 2
  let quarter := exponent - 2
  let (unit, den) := if 0 ≤ quarter then (Binary.twoTo quarter.toNat, 1)
    else (1, Binary.twoTo quarter.natAbs)
  { low := (4 * mantissa - below) * unit
    value := 4 * mantissa * unit
    high := (4 * mantissa + 2) * unit
    den := den
    closed := mantissa % 2 = 0 }

/-- The powers of ten. -/
def tenTo (n : Nat) : Nat := Nat.pow 10 n

/-- `10 ^ e` as a quotient. -/
def tenPower (e : Int) : Nat × Nat := if 0 ≤ e then (tenTo e.toNat, 1) else (1, tenTo e.natAbs)

def Interval.holds (i : Interval) (d : Decimal) : Bool :=
  let (p, q) := tenPower d.exponent
  let point := d.digits * p * i.den
  if i.closed then i.low * q ≤ point && point ≤ i.high * q
  else i.low * q < point && point < i.high * q

/-- The exponent of the first significant digit of `num / den`. -/
def leadingExponent (num den : Nat) : Int :=
  if den ≤ num then ((Nat.toDigits 10 (num / den)).length : Int) - 1
  else
    -- the quotient of `den` by `num` has one digit more than the exponent, unless it is a power
    let k := (Nat.toDigits 10 (den / num)).length
    if den ≤ num * tenTo (k - 1) then -((k : Int) - 1) else -(k : Int)

/-- The neighbour of the value, on the grid of the given spacing, that rounds to it: the nearer one
of two, the even one of two as near. -/
def onGrid? (i : Interval) (exponent : Int) : Option Decimal :=
  let (p, q) := tenPower exponent
  let below := i.value * q / (i.den * p)
  let excess := 2 * (i.value * q % (i.den * p))
  let nearer := if excess < i.den * p then below
    else if i.den * p < excess then below + 1 else below + below % 2
  let farther := if nearer = below then below + 1 else below
  [nearer, farther].map (Decimal.mk · exponent) |>.find? i.holds

/-- Removes zeros at the end. -/
def trimmed (digits : Nat) (exponent : Int) : Nat → Decimal
  | 0 => ⟨digits, exponent⟩
  | fuel + 1 => if digits ≠ 0 ∧ digits % 10 = 0 then trimmed (digits / 10) (exponent + 1) fuel
    else ⟨digits, exponent⟩

/-- The shortest decimal that rounds to `mantissa * 2 ^ exponent`, and of those the nearest. Seventeen
digits are always enough. -/
def shortest (mantissa : Nat) (exponent : Int) : Decimal :=
  let i := interval mantissa exponent
  let top := leadingExponent i.value i.den
  let found := (List.range 17).findSome? fun (k : Nat) ↦ onGrid? i (top - k)
  let d := found.getD ⟨i.value / i.den, 0⟩
  trimmed d.digits d.exponent 20

/-- The double nearest to a decimal, too large ones being infinite. -/
def toFloat (d : Decimal) : Float :=
  let digitCount : Int := (Nat.toDigits 10 d.digits).length
  if d.digits = 0 then 0
  else if d.exponent + digitCount < -400 then 0
  else if 400 < d.exponent + digitCount then 1 / 0
  else
    let (p, q) := tenPower d.exponent
    (Binary.nearest? (d.digits * p) q).getD (1 / 0)

end Decimal

end MessageExtraction
